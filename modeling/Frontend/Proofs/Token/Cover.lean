import Frontend.Proofs.Token.Slices

/-!
# Scanning loses nothing

The tokens of a source take up its text from the first byte to the last one. A token
covers the part of the text that it was read from. Between two tokens there is only
layout: blanks, newlines, and comments that run to the end of their line.
-/

namespace Frontend
namespace Token

/-- The letters that have a meaning after a backslash, each with what it stands for. -/
def escapes : List (Char × Char) :=
  [('n', '\n'), ('t', '\t'), ('r', '\r'), ('\\', '\\'), ('"', '"'), ('0', '\x00')]

/-- The body of a string denotes a value: an escape stands for one character, and any
other pair with a backslash for itself. -/
inductive Denotes : List Char -> List Char -> Prop
  | nil : Denotes [] []
  | plain
      {character : Char}
      {body value : List Char}
      (ordinary : character ≠ '\\' ∧ character ≠ '"' ∧ character ≠ '\n')
      (rest : Denotes body value) :
      Denotes (character :: body) (character :: value)
  | escape
      {letter meaning : Char}
      {body value : List Char}
      (listed : (letter, meaning) ∈ escapes)
      (rest : Denotes body value) :
      Denotes ('\\' :: letter :: body) (meaning :: value)
  | verbatim
      {character : Char}
      {body value : List Char}
      (unlisted : character ∉ escapes.map Prod.fst)
      (onLine : character ≠ '\n')
      (rest : Denotes body value) :
      Denotes ('\\' :: character :: body) ('\\' :: character :: value)

/-- Blanks, newlines and comments. A comment runs to the end of its line, which may come
only in the text `after` the layout. -/
inductive IsLayout (after : List Char) : List Char -> Prop
  | none : IsLayout after []
  | blank
      {character : Char}
      {rest : List Char}
      (isBlank : character ∈ [' ', '\t', '\r', '\n'])
      (more : IsLayout after rest) :
      IsLayout after (character :: rest)
  | comment
      {words rest : List Char}
      (onLine : '\n' ∉ words)
      (ended : ∀ next ∈ (rest ++ after).head?, next = '\n')
      (more : IsLayout after rest) :
      IsLayout after ('/' :: '/' :: (words ++ rest))

/-- The span starts and stops between characters of the text, with `part` between the two
and `after` behind them. -/
def Covers (text : List Char) (span : Span) (part after : List Char) : Prop :=
  ∃ before, text = before ++ (part ++ after) ∧ byteLength before = span.start ∧
    byteLength (before ++ part) = span.stop

/-- The token is what its part of the text reads as. Only the end of the file and
terminators that stand for a line break have no text of their own. -/
def Reads (token : Token) (part : List Char) : Prop :=
  match token.kind with
  | .endOfFile => part = []
  | .string => ∃ body, part = '"' :: (body ++ ['"']) ∧ Denotes body token.value.toList
  | kind =>
      (kind = .semicolon ∧ token.value = "\n" ∧ part = []) ∨
        (part ≠ [] ∧ token.value.toList = part)

/-- The tokens take up the text from an offset on, with layout before each of them. -/
def TakeUp (text : List Char) (offset : Nat) : List Token -> Prop
  | [] => True
  | token :: later =>
      (∃ gap after, Covers text ⟨offset, token.span.start⟩ gap after ∧ IsLayout after gap) ∧
        (∃ part after, Covers text token.span part after ∧ token.Reads part) ∧
        TakeUp text token.span.stop later

/-- The text is cut into the tokens, and nothing but layout is left of it. -/
structure IsCutInto (text : String) (tokens : List Token) : Prop where
  inside : ∀ token ∈ tokens,
    token.span.start ≤ token.span.stop ∧ token.span.stop ≤ text.utf8ByteSize
  ordered : tokens.IsChain fun earlier later => earlier.span.stop ≤ later.span.start
  takeUp : TakeUp text.toList 0 tokens
  last : ∃ earlier,
    tokens = earlier ++ [endOfFile text.utf8ByteSize] ∧
      ∀ token ∈ earlier, token.kind ≠ .endOfFile

/-! ## Strings -/

theorem Rule.unescape_cons
    {character : Char}
    (ordinary : character ≠ '\\')
    (rest : List Char) :
    unescape (character :: rest) = character :: unescape rest := by
  rw [unescape]
  all_goals
    intros
    exact ordinary ‹_›

theorem Rule.unescape_cons_cons
    {character : Char}
    (unlisted : character ∉ escapes.map Prod.fst)
    (rest : List Char) :
    unescape ('\\' :: character :: rest) = '\\' :: character :: unescape rest := by
  rw [unescape]
  all_goals
    rintro rfl
    simp [escapes] at unlisted

/-- The body of a string denotes what unescaping makes of it. -/
theorem denotes_of_stringTail
    {text body : List Char}
    (found : Rule.stringTail text = some (body ++ ['"'])) :
    Denotes body (Rule.unescape body) := by
  fun_induction Rule.stringTail text generalizing body with
  | case1 => cases found
  | case2 rest =>
      have empty : body = [] := by simpa using found
      subst empty
      exact .nil
  | case3 => cases found
  | case4 escaped rest notNewline ih =>
      obtain ⟨inner, innerFound, same⟩ := Option.map_eq_some_iff.mp found
      obtain ⟨innerBody, rfl⟩ := Rule.exists_concat_of_stringTail innerFound
      have whole : '\\' :: escaped :: innerBody = body := by
        rwa [← List.cons_append, ← List.cons_append, List.append_cancel_right_eq] at same
      subst whole
      have inside := ih innerFound
      by_cases listed : escaped ∈ escapes.map Prod.fst
      · obtain ⟨⟨letter, meaning⟩, member, rfl⟩ := List.mem_map.mp listed
        simp only [escapes, List.mem_cons, Prod.mk.injEq, List.not_mem_nil, or_false] at member
        rcases member with ⟨rfl, rfl⟩ | ⟨rfl, rfl⟩ | ⟨rfl, rfl⟩ | ⟨rfl, rfl⟩ | ⟨rfl, rfl⟩ |
          ⟨rfl, rfl⟩ <;>
          exact .escape (by simp [escapes]) inside
      · rw [Rule.unescape_cons_cons listed]
        exact .verbatim listed notNewline inside
  | case5 => cases found
  | case6 character rest notQuote _ ordinary ih =>
      obtain ⟨inner, innerFound, same⟩ := Option.map_eq_some_iff.mp found
      obtain ⟨innerBody, rfl⟩ := Rule.exists_concat_of_stringTail innerFound
      have whole : character :: innerBody = body := by
        rwa [← List.cons_append, List.append_cancel_right_eq] at same
      subst whole
      simp only [Bool.or_eq_true, decide_eq_true_eq, not_or] at ordinary
      rw [Rule.unescape_cons ordinary.2]
      exact .plain ⟨ordinary.2, notQuote, ordinary.1⟩ (ih innerFound)

/-! ## Layout -/

theorem IsLayout.append
    {first second after : List Char}
    (early : IsLayout (second ++ after) first)
    (late : IsLayout after second) :
    IsLayout after (first ++ second) := by
  induction early with
  | none => exact late
  | blank isBlank _ ih => exact .blank isBlank ih
  | comment onLine ended _ ih =>
      simp only [List.cons_append, List.append_assoc]
      refine .comment onLine ?_ ih
      rwa [List.append_assoc]

theorem isLayout_of_forall
    {blanks : List Char}
    (areBlank : ∀ character ∈ blanks, character ∈ [' ', '\t', '\r', '\n'])
    (after : List Char) :
    IsLayout after blanks := by
  induction blanks with
  | nil => exact .none
  | cons character rest ih =>
      rw [List.forall_mem_cons] at areBlank
      exact .blank areBlank.1 (ih areBlank.2)

/-- What makes no token is layout. -/
theorem isLayout_of_lexeme?
    {rule : Rule}
    {lexeme after : List Char}
    (found : rule.lexeme? (lexeme ++ after) = some lexeme)
    (silent : rule.content? lexeme = none) :
    IsLayout after lexeme := by
  cases rule with
  | word => cases silent
  | number => cases silent
  | string => cases silent
  | symbol row => cases silent
  | newline =>
      obtain ⟨rest, -, rfl⟩ := Rule.exists_of_lexeme?_newline found
      exact isLayout_of_forall (by simp) after
  | blanks =>
      obtain ⟨-, -, -, -, taken⟩ := Rule.exists_of_lexeme?_blanks found
      refine isLayout_of_forall (fun character member => ?_) after
      rw [taken] at member
      have isSeparator := List.mem_takeWhile_imp member
      simp only [Rule.isSeparator, Bool.or_eq_true, beq_iff_eq] at isSeparator
      rcases isSeparator with (rfl | rfl) | rfl <;> simp
  | comment =>
      obtain ⟨rest, split, rfl⟩ := Rule.exists_of_lexeme?_comment found
      -- The words of the comment stop where the rest of the line does.
      have follows : after = rest.dropWhile (· ≠ '\n') := by
        simp only [List.cons_append, List.cons.injEq, true_and] at split
        rw [← List.append_cancel_left_eq (rest.takeWhile (· ≠ '\n')), split,
          List.takeWhile_append_dropWhile]
      rw [← List.append_nil (rest.takeWhile _)]
      refine .comment (fun newline => ?_) (fun next isNext => ?_) .none
      · simpa using List.mem_takeWhile_imp newline
      · rw [List.nil_append, follows] at isNext
        simpa using dropWhile_stops (· ≠ '\n') rest next isNext

/-! ## Tokens -/

theorem reads_of_ne
    {token : Token}
    (notEnd : token.kind ≠ .endOfFile)
    (notString : token.kind ≠ .string)
    {part : List Char}
    (nonempty : part ≠ [])
    (same : token.value.toList = part) :
    token.Reads part := by
  unfold Reads
  split
  · contradiction
  · contradiction
  · exact .inr ⟨nonempty, same⟩

/-- A lexeme reads as the token that it makes. -/
theorem reads_of_content?
    {rule : Rule}
    (listed : rule ∈ Rule.all)
    {text lexeme : List Char}
    (found : rule.lexeme? text = some lexeme)
    {kind : Kind}
    {value : String}
    (content : rule.content? lexeme = some (kind, value))
    (span : Span) :
    Reads ⟨kind, value, span⟩ lexeme := by
  have nonempty := (Rule.lexeme?_eq_some listed found).2
  have notEnd := Rule.content?_ne_endOfFile listed content
  cases rule with
  | word =>
      cases content
      exact reads_of_ne notEnd (Kind.ofWord_ne (by decide) (by decide) _) nonempty
        String.toList_ofList
  | number =>
      cases content
      refine reads_of_ne notEnd ?_ nonempty String.toList_ofList
      dsimp only
      split <;> decide
  | string =>
      obtain ⟨body, rfl⟩ := Rule.exists_body found
      cases content
      refine ⟨body, rfl, ?_⟩
      obtain ⟨rest, tail, -, tailFound, same⟩ := Rule.exists_of_lexeme?_string found
      rw [← (List.cons.inj same).2] at tailFound
      simpa using denotes_of_stringTail tailFound
  | symbol row =>
      have fits : ∀ row ∈ Rule.symbols, row.kind ≠ .string ∧ row.literal = row.pattern := by
        decide
      obtain ⟨notString, sameText⟩ := fits row (Rule.mem_symbols listed)
      cases content
      obtain ⟨rest, rfl, rfl⟩ := Rule.exists_of_lexeme?_symbol found
      exact reads_of_ne notEnd notString nonempty (by rw [sameText])
  | newline => cases content
  | blanks => cases content
  | comment => cases content

theorem reads_lineBreak (offset : Nat) : (lineBreak offset).Reads [] :=
  .inl ⟨rfl, rfl, rfl⟩

namespace TakeUp

variable {text : List Char} {offset : Nat} {tokens : List Token}

/-- The tokens follow each other inside the text. -/
theorem ordered (taken : TakeUp text offset tokens) :
    (∀ token ∈ tokens,
      token.span.start ≤ token.span.stop ∧ token.span.stop ≤ byteLength text) ∧
      tokens.IsChain fun earlier later => earlier.span.stop ≤ later.span.start := by
  have forward : ∀ {span : Span} {part after : List Char},
      Covers text span part after -> span.start ≤ span.stop ∧ span.stop ≤ byteLength text := by
    rintro span part after ⟨before, rfl, start, stop⟩
    rw [byteLength_append] at stop
    rw [byteLength_append, byteLength_append]
    omega
  induction tokens generalizing offset with
  | nil => exact ⟨by simp, .nil⟩
  | cons token later ih =>
      obtain ⟨-, ⟨part, after, covers, -⟩, laterTaken⟩ := taken
      obtain ⟨laterInside, laterChain⟩ := ih laterTaken
      refine ⟨List.forall_mem_cons.mpr ⟨forward covers, laterInside⟩, ?_⟩
      cases later with
      | nil => exact .singleton token
      | cons next rest =>
          obtain ⟨⟨gap, behind, gapCovers, -⟩, -⟩ := laterTaken
          exact .cons_cons (forward gapCovers).1 laterChain

end TakeUp

/-- A terminator or the end of the file takes up no text. -/
theorem takeUp_cons_empty
    {text : List Char}
    (early gap rest : List Char)
    {tokens : List Token}
    {token : Token}
    (split : text = early ++ (gap ++ rest))
    (layout : IsLayout rest gap)
    (span : token.span = ⟨byteLength (early ++ gap), byteLength (early ++ gap)⟩)
    (reads : token.Reads [])
    (later : TakeUp text (byteLength (early ++ gap)) tokens) :
    TakeUp text (byteLength early) (token :: tokens) := by
  refine ⟨⟨gap, rest, ⟨early, split, rfl, by rw [span]⟩, layout⟩,
    ⟨[], rest, ⟨early ++ gap, ?_, ?_, ?_⟩, reads⟩, ?_⟩
  · simp [split]
  · rw [span]
  · simp [span]
  · rwa [span]

/-- Tokens are scanned from behind some layout. They take up the text from before that
layout on. -/
theorem takeUp_of_scan
    {endable : Bool}
    {offset : Nat}
    {unread : List Char}
    {tokens : List Token}
    (scanned : scan endable offset unread = .ok tokens)
    {text : List Char}
    (early gap : List Char)
    (split : text = early ++ (gap ++ unread))
    (start : byteLength (early ++ gap) = offset)
    (layout : IsLayout unread gap) :
    TakeUp text (byteLength early) tokens := by
  obtain ⟨lexemes, scans, rfl⟩ := exists_scans_of_scan scanned
  clear scanned
  induction lexemes generalizing endable offset unread early gap with
  | nil =>
      cases scans
      subst start
      cases endable with
      | false => exact takeUp_cons_empty early gap [] split layout rfl rfl trivial
      | true =>
          refine takeUp_cons_empty early gap [] split layout rfl (reads_lineBreak _) ?_
          refine takeUp_cons_empty (early ++ gap) [] [] ?_ .none ?_ rfl trivial
          · simpa using split
          · simp [endOfFile]
  | cons first later ih =>
      cases scans with
      | @step rule lexeme rest _ _ found scans =>
          have taken := Rule.lexeme?_of_first? found
          have whole : text = early ++ gap ++ (lexeme ++ rest) := by
            rw [split, List.append_assoc]
          have stopped : byteLength (early ++ gap ++ lexeme) = offset + byteLength lexeme := by
            rw [byteLength_append, start]
          rw [tokensOf, Rule.tokensAt, Rule.leavesEndable]
          cases content : rule.content? lexeme with
          | some made =>
              have reads := reads_of_content? (Rule.first?_eq_some found).1 taken content
                ⟨offset, offset + byteLength lexeme⟩
              refine ⟨⟨gap, _, ⟨early, split, rfl, start⟩, layout⟩,
                ⟨lexeme, rest, ⟨early ++ gap, whole, start, stopped⟩, reads⟩, ?_⟩
              rw [← stopped]
              exact ih (early ++ gap ++ lexeme) [] (by simpa using whole)
                (by simp) .none scans
          | none =>
              have lexemeLayout : IsLayout rest lexeme := isLayout_of_lexeme? taken content
              -- Without a token for it, the lexeme goes on with the gap.
              have silent : ∀ endable, TakeUp text (byteLength early)
                  (tokensOf endable (offset + byteLength lexeme) later) := fun endable =>
                ih early (gap ++ lexeme) (by simp [split])
                  (by rw [← List.append_assoc, stopped]) (.append layout lexemeLayout) scans
              by_cases isNewline : rule = .newline
              · simp only [if_pos isNewline]
                cases endable with
                | false => exact silent false
                | true =>
                    subst start
                    refine takeUp_cons_empty early gap _ split layout rfl (reads_lineBreak _) ?_
                    exact ih (early ++ gap) lexeme whole stopped lexemeLayout
                      scans
              · simp only [if_neg isNewline]
                exact silent endable

end Token

namespace Source

/-- The tokens of a source cover its text, apart from layout. While the offsets fit into
32 bits, cutting them to that many changes nothing. -/
theorem tokens_lose_nothing
    {source : Source}
    {tokens : List Token}
    (scanned : source.tokens = .ok tokens) :
    Token.IsCutInto source.text tokens ∧
      (source.text.utf8ByteSize < wordSize -> Cursor.scan source = .ok (.ok tokens)) := by
  unfold Source.tokens at scanned
  split at scanned
  next found =>
    cases scanned
    have taken : Token.TakeUp source.text.toList 0 tokens :=
      Token.takeUp_of_scan found [] [] rfl rfl .none
    obtain ⟨inside, ordered⟩ := taken.ordered
    obtain ⟨earlier, same, proper⟩ := Token.areInside_of_scan found
    rw [Token.byteLength_toList] at inside
    rw [Token.byteLength_toList, Nat.zero_add] at same
    refine ⟨⟨inside, ordered, taken, earlier, same, fun token member => ?_⟩, fun short => ?_⟩
    · exact (proper token member).1
    · rw [Cursor.scan_eq short, found]
  next => cases scanned

/-- A string with escapes, an operator before a comment, and a comment that ends the
text. -/
def commented : Source :=
  .ofText "x = \"\\n\\q\\\\\"\r\n\t!=// \u00e9\n// y" none

theorem tokens_lose_nothing_commented :
    ∃ tokens, commented.tokens = .ok tokens ∧ tokens.length = 6 ∧
      Token.IsCutInto commented.text tokens ∧ Cursor.scan commented = .ok (.ok tokens) := by
  have scanned : ∃ tokens, commented.tokens = .ok tokens ∧ tokens.length = 6 :=
    ⟨_, by cbv, by cbv⟩
  obtain ⟨tokens, scanned, length⟩ := scanned
  obtain ⟨isCut, agrees⟩ := tokens_lose_nothing scanned
  exact ⟨tokens, scanned, length, isCut, agrees (by decide)⟩

end Source

end Frontend
