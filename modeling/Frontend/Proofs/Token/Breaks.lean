import Frontend.Proofs.Token.Joining
import Frontend.Proofs.Token.Slices

/-!
# Where line breaks end statements

A token that is read from the text is followed by a terminator that was not, if its kind
can end a statement and its line ends before the next token. There is no terminator of
this kind anywhere else.
-/

namespace Frontend
namespace Token

/-- The offsets of the newlines in a text that starts at an offset, in ascending order. -/
def newlines (offset : Nat) : List Char -> List Nat
  | [] => []
  | character :: rest =>
      if character = '\n' then
        offset :: newlines (offset + character.utf8Size) rest
      else
        newlines (offset + character.utf8Size) rest

/-- The offset of the first newline from an offset on, or of the end of the text if there
is none. -/
def lineEnd (text : List Char) (offset : Nat) : Nat :=
  ((newlines 0 text).find? fun newline => offset ≤ newline).getD (byteLength text)

/-- The token was read from the text. It is neither the end of the file nor a terminator
that a line break stands for. -/
def isRead (token : Token) : Bool :=
  token.kind ≠ .endOfFile && !(token.kind == .semicolon && token.value == "\n")

/-- The line breaks off between an offset and the next token, if there is one. -/
def BreaksOff (text : List Char) (offset : Nat) (next? : Option Token) : Prop :=
  ∀ next ∈ next?, ∃ newline ∈ newlines 0 text, offset ≤ newline ∧ newline < next.span.start

instance (text : List Char) (offset : Nat) (next? : Option Token) :
    Decidable (BreaksOff text offset next?) :=
  inferInstanceAs (Decidable (∀ next ∈ next?, ∃ newline ∈ newlines 0 text,
    offset ≤ newline ∧ newline < next.span.start))

/-- The terminator that a line break stands for between an offset and the next token,
where `endable` says whether the token before can end a statement. -/
def breakAfter
    (text : List Char)
    (endable : Bool)
    (offset : Nat)
    (next? : Option Token) : List Token :=
  if endable = true ∧ BreaksOff text offset next? then
    [lineBreak (lineEnd text offset)]
  else
    []

/-- Tokens with the terminators that line breaks stand for behind them. -/
def punctuated (text : List Char) : List Token -> List Token
  | [] => []
  | token :: later =>
      token :: breakAfter text token.kind.endsStatement token.span.stop later.head? ++
        punctuated text later

/-! ## Newlines -/

theorem newlines_append (offset : Nat) (first second : List Char) :
    newlines offset (first ++ second) =
      newlines offset first ++ newlines (offset + byteLength first) second := by
  induction first generalizing offset with
  | nil => rfl
  | cons character first ih =>
      rw [List.cons_append, newlines, newlines, ih, byteLength_cons,
        Nat.add_assoc]
      split <;> rfl

theorem newlines_eq_nil
    {text : List Char}
    (onLine : '\n' ∉ text)
    (offset : Nat) :
    newlines offset text = [] := by
  induction text generalizing offset with
  | nil => rfl
  | cons character text ih =>
      rw [List.mem_cons, not_or] at onLine
      rw [newlines, if_neg (Ne.symm onLine.1), ih onLine.2]

/-- Newlines lie inside of the text. -/
theorem mem_newlines
    {offset newline : Nat}
    {text : List Char}
    (member : newline ∈ newlines offset text) :
    offset ≤ newline ∧ newline < offset + byteLength text := by
  induction text generalizing offset with
  | nil => cases member
  | cons character text ih =>
      have positive := character.utf8Size_pos
      rw [byteLength_cons]
      rw [newlines] at member
      split at member
      · rcases List.mem_cons.mp member with rfl | member
        · omega
        · have later := ih member
          omega
      · have later := ih member
        omega

section Unread

variable (before unread : List Char)

/-- From an offset on, the newlines are those of what follows there. -/
theorem mem_newlines_append {newline : Nat} :
    newline ∈ newlines 0 (before ++ unread) ∧ byteLength before ≤ newline ↔
      newline ∈ newlines (byteLength before) unread := by
  rw [newlines_append, Nat.zero_add, List.mem_append]
  constructor
  · rintro ⟨early | late, behind⟩
    · have inside := (mem_newlines early).2
      omega
    · exact late
  · intro late
    exact ⟨.inr late, (mem_newlines late).1⟩

theorem lineEnd_append :
    lineEnd (before ++ unread) (byteLength before) =
      (newlines (byteLength before) unread).head?.getD
        (byteLength before + byteLength unread) := by
  have early : (newlines 0 before).find? (fun newline => byteLength before ≤ newline) = none := by
    rw [List.find?_eq_none]
    intro newline member
    have inside := (mem_newlines member).2
    simpa using inside
  have late : (newlines (byteLength before) unread).find?
      (fun newline => byteLength before ≤ newline) =
        (newlines (byteLength before) unread).head? := by
    cases found : newlines (byteLength before) unread with
    | nil => rfl
    | cons newline more =>
        have behind := (mem_newlines (found ▸ List.mem_cons_self)).1
        simp [behind]
  rw [lineEnd, newlines_append, Nat.zero_add, List.find?_append, early, Option.none_or, late,
    byteLength_append]

/-- Whether a line breaks off is seen in what follows. -/
theorem breakAfter_append (endable : Bool) (next? : Option Token) :
    breakAfter (before ++ unread) endable (byteLength before) next? =
      if endable = true ∧ ∀ next ∈ next?,
          ∃ newline ∈ newlines (byteLength before) unread, newline < next.span.start then
        [lineBreak ((newlines (byteLength before) unread).head?.getD
          (byteLength before + byteLength unread))]
      else
        [] := by
  have same : BreaksOff (before ++ unread) (byteLength before) next? ↔
      ∀ next ∈ next?,
        ∃ newline ∈ newlines (byteLength before) unread, newline < next.span.start := by
    unfold BreaksOff
    simp only [← and_assoc, mem_newlines_append]
  rw [breakAfter, lineEnd_append]
  simp only [same]

end Unread

/-- A token that starts right there leaves no room for a break. -/
theorem breakAfter_eq_nil
    (text : List Char)
    (endable : Bool)
    (next : Token) :
    breakAfter text endable next.span.start (some next) = [] := by
  rw [breakAfter, if_neg]
  rintro ⟨-, breaks⟩
  obtain ⟨newline, -, behind, inFront⟩ := breaks next rfl
  omega

/-- A newline breaks the line off before every token behind it. -/
theorem breakAfter_newline
    (before rest : List Char)
    (endable : Bool)
    {next? : Option Token}
    (behind : ∀ next ∈ next?, byteLength before < next.span.start) :
    breakAfter (before ++ '\n' :: rest) endable (byteLength before) next? =
      terminator endable (byteLength before) := by
  have breaks : ∀ next ∈ next?, ∃ newline ∈ newlines (byteLength before) ('\n' :: rest),
      newline < next.span.start :=
    fun next isNext => ⟨byteLength before, by simp [newlines], behind next isNext⟩
  rw [breakAfter_append]
  cases endable with
  | false => simp [terminator]
  | true =>
      rw [if_pos ⟨rfl, breaks⟩]
      simp [terminator, newlines]

/-- Where no newline stands, a break is just as far ahead. -/
theorem breakAfter_skip
    (before rest : List Char)
    {skipped : List Char}
    (onLine : '\n' ∉ skipped)
    (endable : Bool)
    (next? : Option Token) :
    breakAfter (before ++ (skipped ++ rest)) endable (byteLength before) next? =
      breakAfter (before ++ (skipped ++ rest)) endable (byteLength (before ++ skipped)) next? := by
  rw [breakAfter_append, ← List.append_assoc, breakAfter_append, newlines_append,
    newlines_eq_nil onLine, List.nil_append, byteLength_append, byteLength_append, Nat.add_assoc]

/-! ## The tokens of a text -/

/-- What a lexeme makes is no terminator that a line break stands for. -/
theorem isRead_of_content?
    {rule : Rule}
    (listed : rule ∈ Rule.all)
    {lexeme : List Char}
    {kind : Kind}
    {value : String}
    (content : rule.content? lexeme = some (kind, value))
    (span : Span) :
    isRead ⟨kind, value, span⟩ = true := by
  have notEnd := Rule.content?_ne_endOfFile listed content
  have visible : kind ≠ .semicolon ∨ value ≠ "\n" := by
    cases rule with
    | word =>
        cases content
        exact .inl (Kind.ofWord_ne (by decide) (by decide) _)
    | number =>
        cases content
        refine .inl ?_
        split <;> decide
    | string =>
        cases content
        exact .inl (by decide)
    | symbol row =>
        have spelled : ∀ row ∈ Rule.symbols, row.literal ≠ "\n" := by
          decide
        cases content
        exact .inr (spelled row (Rule.mem_symbols listed))
    | newline => cases content
    | blanks => cases content
    | comment => cases content
  simpa [isRead, notEnd] using visible

theorem filter_isRead_terminator (endable : Bool) (offset : Nat) :
    (terminator endable offset).filter isRead = [] := by
  cases endable <;> simp [terminator, lineBreak, isRead]

/-- The tokens of what is unread are those that are read from it, with terminators between
them. The first one may belong to a token before. -/
theorem Scans.tokensOf_eq
    {unread : List Char}
    {lexemes : List (Rule × List Char)}
    (scans : Scans unread lexemes [])
    (endable : Bool)
    {text before : List Char}
    (split : text = before ++ unread)
    {tokens : List Token}
    (made : tokens = tokensOf endable (byteLength before) lexemes) :
    tokens =
      breakAfter text endable (byteLength before) (tokens.filter isRead).head? ++
        (punctuated text (tokens.filter isRead) ++ [endOfFile (byteLength text)]) := by
  generalize isEmpty : ([] : List Char) = left at scans
  induction scans generalizing endable before tokens with
  | stop left =>
      subst isEmpty split made
      have silent : (terminator endable (byteLength before) ++
          [endOfFile (byteLength before)]).filter isRead = [] := by
        simp [filter_isRead_terminator, isRead, endOfFile]
      rw [tokensOf, silent, List.head?_nil, breakAfter_append]
      cases endable <;> simp [terminator, newlines, punctuated]
  | @step rule lexeme rest left later found laterScans ih =>
      have listed := (Rule.first?_eq_some found).1
      have further : text = (before ++ lexeme) ++ rest := by rw [split, List.append_assoc]
      have moved : byteLength before + byteLength lexeme = byteLength (before ++ lexeme) :=
        (byteLength_append _ _).symm
      obtain ⟨others, othersMade⟩ : ∃ others, others =
          tokensOf (rule.leavesEndable lexeme endable) (byteLength (before ++ lexeme)) later :=
        ⟨_, rfl⟩
      have behind := ih _ further othersMade isEmpty
      rw [tokensOf, moved, ← othersMade, Rule.tokensAt] at made
      rw [Rule.leavesEndable] at behind
      cases content : rule.content? lexeme with
      | some pair =>
          obtain ⟨kind, value⟩ := pair
          -- The token takes over the break that may come behind it.
          simp only [content, List.singleton_append] at made behind
          have shown := isRead_of_content? listed content
            ⟨byteLength before, byteLength before + byteLength lexeme⟩
          have first := breakAfter_eq_nil text endable
            ⟨kind, value, ⟨byteLength before, byteLength before + byteLength lexeme⟩⟩
          rw [made, List.filter_cons_of_pos shown, List.head?_cons, punctuated, first, moved,
            List.nil_append, List.cons_append, List.cons_append, List.append_assoc]
          exact congrArg _ behind
      | none =>
          by_cases isNewline : rule = .newline
          · -- The newline is the first one, and every token that is read comes later.
            simp only [content, if_pos isNewline] at made behind
            have settled : breakAfter text false (byteLength (before ++ lexeme))
                (others.filter isRead).head? = [] := rfl
            have ended : breakAfter text endable (byteLength before)
                (others.filter isRead).head? = terminator endable (byteLength before) := by
              obtain ⟨-, -, isLexeme⟩ :=
                Rule.exists_of_lexeme?_newline (isNewline ▸ Rule.lexeme?_of_first? found)
              rw [split, isLexeme, List.singleton_append]
              refine breakAfter_newline before rest endable fun next isNext => ?_
              have member := List.mem_of_mem_filter (List.mem_of_mem_head? isNext)
              subst isEmpty othersMade
              have behind := laterScans.le_start member
              have positive := byteLength_pos (Rule.first?_eq_some found).2.2
              omega
            rw [made, List.filter_append, filter_isRead_terminator, List.nil_append, ended]
            rw [settled, List.nil_append] at behind
            exact congrArg _ behind
          · -- Blanks and comments hold no newline, so a break is just as far ahead.
            simp only [content, if_neg isNewline, List.nil_append] at made behind
            have onLine : '\n' ∉ lexeme := fun member =>
              isNewline (Rule.eq_newline_of_mem found member)
            rw [made, split, breakAfter_skip before rest onLine, ← split]
            exact behind

end Token

namespace Source

/-- The tokens of a source are those that are read from its text, with a terminator behind
each that can end a statement and whose line ends before the next one is read. While the
offsets fit into 32 bits, cutting them to that many changes nothing. -/
theorem breaks_end_statements
    {source : Source}
    {tokens : List Token}
    (scanned : source.tokens = .ok tokens) :
    tokens =
        Token.punctuated source.text.toList (tokens.filter Token.isRead) ++
          [Token.endOfFile source.text.utf8ByteSize] ∧
      (source.text.utf8ByteSize < wordSize -> Cursor.scan source = .ok (.ok tokens)) := by
  rw [tokens_eq_ok] at scanned
  obtain ⟨lexemes, scans, made⟩ := Token.exists_scans_of_scan scanned
  have whole : source.text.toList = [] ++ source.text.toList := rfl
  refine ⟨?_, fun short => ?_⟩
  · rw [← Token.byteLength_toList]
    exact scans.tokensOf_eq false whole made
  · rw [Cursor.scan_eq short, scanned]

/-- Blank lines, an operator at the end of a line, a comment before a carriage return, an
explicit semicolon, and a last line without a newline. -/
def broken : Source :=
  .ofText "\n\tx =\n\n f(1) // g\r\n\n;\n y \r" none

theorem breaks_end_statements_broken :
    ∃ tokens, broken.tokens = .ok tokens ∧
      (tokens.filter Token.isRead).length = 8 ∧ tokens.length = 11 ∧
      tokens =
        Token.punctuated broken.text.toList (tokens.filter Token.isRead) ++
          [Token.endOfFile broken.text.utf8ByteSize] ∧
      Cursor.scan broken = .ok (.ok tokens) := by
  have scanned : ∃ tokens, broken.tokens = .ok tokens ∧
      (tokens.filter Token.isRead).length = 8 ∧ tokens.length = 11 :=
    ⟨_, by cbv, by cbv, by cbv⟩
  obtain ⟨tokens, scanned, shown, length⟩ := scanned
  obtain ⟨punctuated, agrees⟩ := breaks_end_statements scanned
  exact ⟨tokens, scanned, shown, length, punctuated, agrees (by decide)⟩

end Source

end Frontend
