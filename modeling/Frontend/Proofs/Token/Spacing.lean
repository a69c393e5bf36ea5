import Frontend.Proofs.Token.Following

/-!
# Layout inside a line

Blanks may stand wherever a token starts or ends, and a comment behind a space wherever a
line ends. A piece of layout that is put in there becomes a lexeme of its own, or a part
of blanks or a comment that were there before. So the lexemes that make tokens stay, and
the tokens have the kinds and values that they had.
-/

namespace Frontend
namespace Token

/-- The lexemes of this rule leave no trace in the tokens. -/
def Rule.isSkipped (rule : Rule) : Bool :=
  rule = .blanks ∨ rule = .comment

/-- The lexemes without blanks and comments. -/
def kept (lexemes : List (Rule × List Char)) : List (Rule × List Char) :=
  lexemes.filter fun lexeme => !lexeme.1.isSkipped

theorem kept_cons (rule : Rule) (lexeme : List Char) (later : List (Rule × List Char)) :
    kept ((rule, lexeme) :: later) =
      if rule.isSkipped then kept later else (rule, lexeme) :: kept later := by
  cases skipped : rule.isSkipped <;> simp [kept, skipped]

/-! ## The tokens of the lexemes that are kept -/

theorem Rule.map_content_tokensAt
    (rule : Rule)
    (lexeme : List Char)
    (endable : Bool)
    (offset other : Nat) :
    (rule.tokensAt lexeme endable offset).map content =
      (rule.tokensAt lexeme endable other).map content := by
  unfold tokensAt terminator
  cases rule.content? lexeme with
  | some made => rfl
  | none =>
      dsimp only
      split
      · cases endable <;> rfl
      · rfl

/-- Blanks and comments make no token and leave open what the token before them does. -/
theorem Rule.tokensAt_of_isSkipped
    {rule : Rule}
    (skipped : rule.isSkipped = true)
    (lexeme : List Char)
    (endable : Bool)
    (offset : Nat) :
    rule.tokensAt lexeme endable offset = [] ∧ rule.leavesEndable lexeme endable = endable := by
  simp only [isSkipped, decide_eq_true_eq] at skipped
  rcases skipped with rfl | rfl <;> exact ⟨rfl, rfl⟩

/-- The kinds and values of the tokens depend on the lexemes that are kept. -/
theorem map_content_tokensOf
    (lexemes : List (Rule × List Char))
    (endable : Bool)
    (offset other : Nat) :
    (tokensOf endable offset lexemes).map content =
      (tokensOf endable other (kept lexemes)).map content := by
  induction lexemes generalizing endable offset other with
  | nil => cases endable <;> rfl
  | cons lexeme later ih =>
      obtain ⟨rule, lexeme⟩ := lexeme
      rw [tokensOf, kept_cons]
      split
      next skipped =>
        obtain ⟨none, same⟩ := Rule.tokensAt_of_isSkipped skipped lexeme endable offset
        rw [none, same, List.nil_append]
        exact ih endable _ other
      next =>
        rw [tokensOf, List.map_append, List.map_append, ih,
          rule.map_content_tokensAt lexeme endable offset other]

/-! ## Cutting at the boundaries of lexemes -/

theorem Scans.exists_of_cons
    {text left lexeme : List Char}
    {rule : Rule}
    {later : List (Rule × List Char)}
    (scans : Scans text ((rule, lexeme) :: later) left) :
    ∃ rest, text = lexeme ++ rest ∧ Rule.first? (lexeme ++ rest) = some (rule, lexeme) ∧
      Scans rest later left := by
  cases scans with
  | step found scans => exact ⟨_, rfl, found, scans⟩

/-- No lexeme starts with a point. -/
theorem Scans.head_ne_point
    {text : List Char}
    {lexemes : List (Rule × List Char)}
    (scans : Scans text lexemes []) :
    '.' ∉ text.head? := by
  intro isHead
  obtain ⟨rest, rfl⟩ := List.head?_eq_some_iff.mp isHead
  have never : Rule.first? ('.' :: rest) = none := by
    simp +decide [Rule.first?, Rule.all, Rule.symbols, Rule.lexeme?]
  generalize isText : '.' :: rest = text at scans
  cases scans with
  | stop => cases isText
  | step found scans =>
      rw [← isText, never] at found
      cases found

/-- Nothing behind a lexeme goes on with it if it can be cut into lexemes. -/
theorem Scans.stops
    {rule : Rule}
    {lexeme rest : List Char}
    {later : List (Rule × List Char)}
    (found : Rule.first? (lexeme ++ rest) = some (rule, lexeme))
    (scans : Scans rest later []) :
    ∀ next ∈ rest.head?, rule.goesOn next = false := by
  intro next isHead
  obtain ⟨more, rfl⟩ := List.head?_eq_some_iff.mp isHead
  refine Rule.goesOn_eq_false found ?_
  rintro rfl
  exact scans.head_ne_point rfl

theorem span_of_mem_terminator
    {endable : Bool}
    {offset : Nat}
    {token : Token}
    (member : token ∈ terminator endable offset) :
    token.span = ⟨offset, offset⟩ := by
  unfold terminator at member
  split at member
  · rw [List.mem_singleton.mp member]
    rfl
  · cases member

/-- What a lexeme makes starts with it, and ends there too or ends with it. -/
theorem Rule.span_of_mem_tokensAt
    {rule : Rule}
    {lexeme : List Char}
    {endable : Bool}
    {offset : Nat}
    {token : Token}
    (member : token ∈ rule.tokensAt lexeme endable offset) :
    token.span = ⟨offset, offset⟩ ∨ token.span = ⟨offset, offset + byteLength lexeme⟩ := by
  unfold tokensAt at member
  split at member
  · rw [List.mem_singleton.mp member]
    exact .inr rfl
  · split at member
    · exact .inl (span_of_mem_terminator member)
    · cases member

theorem Scans.second
    {after : List Char}
    {first second : List (Rule × List Char)}
    (scans : Scans (joined first ++ after) (first ++ second) []) :
    Scans after second [] := by
  induction first with
  | nil => exact scans
  | cons lexeme more ih =>
      rw [joined_cons, List.append_assoc] at scans
      obtain ⟨rest, split, -, scans⟩ := scans.exists_of_cons
      rw [List.append_cancel_left_eq] at split
      subst split
      exact ih scans

/-- Tokens start and end between lexemes. -/
theorem exists_split_of_mem_tokensOf
    {lexemes : List (Rule × List Char)}
    {endable : Bool}
    {offset : Nat}
    {token : Token}
    (member : token ∈ tokensOf endable offset lexemes)
    {place : Nat}
    (isEnd : place = token.span.start ∨ place = token.span.stop) :
    ∃ first second, lexemes = first ++ second ∧ place = offset + byteLength (joined first) := by
  induction lexemes generalizing endable offset with
  | nil =>
      have span : token.span = ⟨offset, offset⟩ := by
        rw [tokensOf, List.mem_append, List.mem_singleton] at member
        rcases member with breaks | rfl
        · exact span_of_mem_terminator breaks
        · rfl
      refine ⟨[], [], rfl, ?_⟩
      rw [span] at isEnd
      exact isEnd.elim id id
  | cons lexeme later ih =>
      obtain ⟨rule, lexeme⟩ := lexeme
      rw [tokensOf, List.mem_append] at member
      rcases member with made | made
      · have isSide : place = offset ∨ place = offset + byteLength lexeme := by
          rcases Rule.span_of_mem_tokensAt made with span | span <;> rw [span] at isEnd
          · exact .inl (isEnd.elim id id)
          · exact isEnd
        rcases isSide with rfl | rfl
        · exact ⟨[], _, rfl, rfl⟩
        · refine ⟨[(rule, lexeme)], later, rfl, ?_⟩
          rw [joined_cons, joined, List.flatMap_nil, List.append_nil]
      · obtain ⟨first, second, rfl, rfl⟩ := ih made
        refine ⟨(rule, lexeme) :: first, second, rfl, ?_⟩
        rw [joined_cons, byteLength_append, Nat.add_assoc]

/-- A line ends between lexemes. -/
theorem Scans.exists_split_of_endsLine
    {before after : List Char}
    {lexemes : List (Rule × List Char)}
    (scans : Scans (before ++ after) lexemes [])
    (endsLine : ∀ next ∈ after.head?, next = '\n') :
    ∃ first second, lexemes = first ++ second ∧ before = joined first := by
  induction lexemes generalizing before with
  | nil =>
      generalize isText : before ++ after = text at scans
      cases scans with
      | stop => exact ⟨[], [], rfl, (List.append_eq_nil_iff.mp isText).1⟩
  | cons lexeme later ih =>
      obtain ⟨rule, lexeme⟩ := lexeme
      obtain ⟨rest, split, found, scans⟩ := scans.exists_of_cons
      rcases List.append_eq_append_iff.mp split with ⟨more, rfl, rfl⟩ | ⟨more, rfl, rfl⟩
      · cases more with
        | nil =>
            refine ⟨[(rule, before ++ [])], later, rfl, ?_⟩
            rw [joined_cons, joined, List.flatMap_nil, List.append_nil, List.append_nil]
        | cons next more =>
            -- The line would end inside the lexeme, which is then a newline, at its start.
            obtain rfl : next = '\n' := endsLine next rfl
            obtain rfl := Rule.eq_newline_of_mem found (by simp)
            obtain ⟨-, -, whole⟩ := Rule.exists_of_lexeme?_newline (Rule.lexeme?_of_first? found)
            obtain ⟨rfl, -⟩ : before = [] ∧ more = [] := by
              simpa [List.append_eq_singleton_iff] using whole
            exact ⟨[], _, rfl, rfl⟩
      · obtain ⟨first, second, rfl, rfl⟩ := ih scans
        exact ⟨(rule, lexeme) :: first, second, rfl, (joined_cons _ _ _).symm⟩

/-! ## Putting layout in -/

theorem Rule.first?_blanks
    {blanks rest : List Char}
    (nonempty : blanks ≠ [])
    (separate : ∀ character ∈ blanks, isSeparator character = true)
    (stops : ∀ next ∈ rest.head?, isSeparator next = false) :
    first? (blanks ++ rest) = some (.blanks, blanks) := by
  have taken := (takeWhile_append_of_stops separate stops).1
  obtain ⟨first, more, rfl⟩ := List.exists_cons_of_ne_nil nonempty
  refine first?_of_lexeme? (by simp) ?_
  simp only [lexeme?, taken]

theorem Rule.first?_comment_append
    {words rest : List Char}
    (onOneLine : '\n' ∉ words)
    (stops : ∀ next ∈ rest.head?, next = '\n') :
    first? ('/' :: '/' :: words ++ rest) = some (.comment, '/' :: '/' :: words) := by
  have inside : ∀ character ∈ words, decide (character ≠ '\n') = true := by
    intro character member
    rw [decide_eq_true_eq]
    rintro rfl
    exact onOneLine member
  have taken := (takeWhile_append_of_stops inside (by simpa using stops)).1
  rw [List.cons_append, List.cons_append, first?_comment, taken]

/-- Blanks in front of a text are skipped. -/
theorem Scans.exists_blanks_append
    {text blanks : List Char}
    {lexemes : List (Rule × List Char)}
    (scans : Scans text lexemes [])
    (separate : ∀ character ∈ blanks, Rule.isSeparator character = true) :
    ∃ others, Scans (blanks ++ text) others [] ∧ kept others = kept lexemes := by
  by_cases isEmpty : blanks = []
  · subst isEmpty
    exact ⟨lexemes, scans, rfl⟩
  by_cases starts : ∃ lexeme later, lexemes = (.blanks, lexeme) :: later
  · -- The blanks become a part of those that the text starts with.
    obtain ⟨lexeme, later, rfl⟩ := starts
    obtain ⟨rest, rfl, found, scans⟩ := scans.exists_of_cons
    obtain ⟨-, -, -, -, taken⟩ := Rule.exists_of_lexeme?_blanks (Rule.lexeme?_of_first? found)
    have separateBoth : ∀ character ∈ blanks ++ lexeme, Rule.isSeparator character = true := by
      rw [List.forall_mem_append]
      refine ⟨separate, ?_⟩
      rw [taken]
      exact fun character => List.mem_takeWhile_imp
    have joint := Rule.first?_blanks (by simp [isEmpty]) separateBoth (Scans.stops found scans)
    refine ⟨(.blanks, blanks ++ lexeme) :: later, ?_, by simp [kept_cons, Rule.isSkipped]⟩
    rw [← List.append_assoc]
    exact .step joint scans
  · refine ⟨(.blanks, blanks) :: lexemes, .step ?_ scans, by simp [kept_cons, Rule.isSkipped]⟩
    refine Rule.first?_blanks isEmpty separate fun next isHead => ?_
    by_contra separates
    rw [Bool.not_eq_false] at separates
    obtain ⟨rest, rfl⟩ := List.head?_eq_some_iff.mp isHead
    generalize isText : next :: rest = text at scans
    cases scans with
    | stop => cases isText
    | step found scans =>
        rw [← isText, Rule.first?_of_isSeparator separates] at found
        cases found
        exact starts ⟨_, _, rfl⟩

/-- A piece of layout fits in before a text that is cut into these lexemes: it stays on
its line, it starts with a separator, and blanks may stand in front of it. -/
structure Fits (inserted after : List Char) (lexemes : List (Rule × List Char)) : Prop where
  separated : ∃ next ∈ inserted.head?, Rule.isSeparator next = true
  onOneLine : '\n' ∉ inserted
  absorbed : ∀ blanks : List Char,
    (∀ character ∈ blanks, Rule.isSeparator character = true) ->
      ∃ others, Scans (blanks ++ (inserted ++ after)) others [] ∧ kept others = kept lexemes

namespace Fits

variable {inserted after : List Char} {second : List (Rule × List Char)}

/-- Layout that fits in fits in behind a lexeme. Blanks and comments take it in. -/
theorem exists_behind
    (fits : Fits inserted after second)
    {rule : Rule}
    {lexeme : List Char}
    (found : Rule.first? (lexeme ++ after) = some (rule, lexeme))
    (scans : Scans after second []) :
    ∃ others, Scans (lexeme ++ (inserted ++ after)) others [] ∧
      kept others = kept ((rule, lexeme) :: second) := by
  obtain ⟨next, isHead, separates⟩ := fits.separated
  have ruleFound := Rule.lexeme?_of_first? found
  by_cases isBlanks : rule = .blanks
  · subst isBlanks
    obtain ⟨-, -, -, -, taken⟩ := Rule.exists_of_lexeme?_blanks ruleFound
    obtain ⟨others, otherScans, same⟩ := fits.absorbed lexeme (by
      rw [taken]
      exact fun character => List.mem_takeWhile_imp)
    exact ⟨others, otherScans, by simp [same, kept_cons, Rule.isSkipped]⟩
  by_cases isComment : rule = .comment
  · subst isComment
    obtain ⟨words, -, rfl⟩ := Rule.exists_of_lexeme?_comment ruleFound
    have onOneLine : '\n' ∉ words.takeWhile (· ≠ '\n') ++ inserted := by
      rw [List.mem_append, not_or]
      exact ⟨fun member => by simpa using List.mem_takeWhile_imp member, fits.onOneLine⟩
    have longer := Rule.first?_comment_append onOneLine
      (by simpa [Rule.goesOn] using Scans.stops found scans)
    refine ⟨(.comment, '/' :: '/' :: (words.takeWhile (· ≠ '\n') ++ inserted)) :: second, ?_,
      by simp [kept_cons, Rule.isSkipped]⟩
    simpa using Scans.step longer scans
  · obtain ⟨others, otherScans, same⟩ := fits.absorbed [] (by simp)
    obtain ⟨more, rfl⟩ := List.head?_eq_some_iff.mp isHead
    refine ⟨(rule, lexeme) :: others, .step (Rule.first?_append found ?_) otherScans, ?_⟩
    · intro first isFirst
      cases isFirst
      exact Rule.goesOn_of_isSeparator isBlanks isComment separates
    · rw [kept_cons, kept_cons, same]

/-- Layout that fits in fits in behind any number of lexemes. -/
theorem exists_insert
    (fits : Fits inserted after second)
    {first : List (Rule × List Char)}
    (scans : Scans (joined first ++ after) (first ++ second) []) :
    ∃ others, Scans (joined first ++ (inserted ++ after)) others [] ∧
      kept others = kept (first ++ second) := by
  induction first with
  | nil => exact fits.absorbed [] (by simp)
  | cons lexeme more ih =>
      obtain ⟨rule, lexeme⟩ := lexeme
      rw [joined_cons, List.append_assoc] at scans ⊢
      obtain ⟨rest, split, found, scans⟩ := scans.exists_of_cons
      rw [List.append_cancel_left_eq] at split
      subst split
      cases more with
      | nil => exact fits.exists_behind found scans
      | cons next more =>
          -- The next lexeme starts with the character with which it started before.
          obtain ⟨others, otherScans, same⟩ := ih scans
          have stops := Scans.stops found scans
          obtain ⟨nextRule, next⟩ := next
          obtain ⟨_, _, nextFound, _⟩ := scans.exists_of_cons
          obtain ⟨character, further, rfl⟩ :=
            List.exists_cons_of_ne_nil (Rule.first?_eq_some nextFound).2.2
          rw [joined_cons] at stops otherScans ⊢
          refine ⟨(rule, lexeme) :: others, .step (Rule.first?_append found stops) otherScans, ?_⟩
          rw [kept_cons, List.cons_append, kept_cons, same]

end Fits

theorem fits_of_separators
    {inserted after : List Char}
    {lexemes : List (Rule × List Char)}
    (nonempty : inserted ≠ [])
    (separate : ∀ character ∈ inserted, Rule.isSeparator character = true)
    (scans : Scans after lexemes []) :
    Fits inserted after lexemes where
  separated := by
    obtain ⟨first, more, rfl⟩ := List.exists_cons_of_ne_nil nonempty
    exact ⟨first, rfl, separate first (by simp)⟩
  onOneLine := fun member => absurd (separate '\n' member) (by decide)
  absorbed := by
    intro blanks separateBefore
    rw [← List.append_assoc]
    exact scans.exists_blanks_append (List.forall_mem_append.mpr ⟨separateBefore, separate⟩)

theorem fits_of_comment
    {words after : List Char}
    {lexemes : List (Rule × List Char)}
    (onOneLine : '\n' ∉ words)
    (endsLine : ∀ next ∈ after.head?, next = '\n')
    (scans : Scans after lexemes []) :
    Fits (' ' :: '/' :: '/' :: words) after lexemes where
  separated := ⟨' ', rfl, by decide⟩
  onOneLine := by simpa using onOneLine
  absorbed := by
    intro blanks separate
    have commented := Scans.step (Rule.first?_comment_append onOneLine endsLine) scans
    have separateBoth : ∀ character ∈ blanks ++ [' '], Rule.isSeparator character = true :=
      List.forall_mem_append.mpr ⟨separate, by simp [Rule.isSeparator]⟩
    obtain ⟨others, otherScans, same⟩ := commented.exists_blanks_append separateBoth
    exact ⟨others, by simpa using otherScans, by simp [same, kept_cons, Rule.isSkipped]⟩

/-- What stands in front of a place is told by its number of bytes. -/
theorem eq_of_byteLength_eq
    {before after first second : List Char}
    (same : before ++ after = first ++ second)
    (bytes : byteLength before = byteLength first) :
    before = first := by
  rcases List.append_eq_append_iff.mp same with ⟨more, rfl, -⟩ | ⟨more, rfl, -⟩ <;>
    rw [byteLength_append] at bytes <;>
    by_cases isEmpty : more = []
  · rw [isEmpty, List.append_nil]
  · have positive := byteLength_pos isEmpty
    omega
  · rw [isEmpty, List.append_nil]
  · have positive := byteLength_pos isEmpty
    omega

end Token

namespace Source

/-- The other source is the first one with a piece of layout put in: separators where one
of its tokens starts or ends, or a comment behind a space where one of its lines ends. -/
def GainsLayout (source other : Source) : Prop :=
  ∃ before inserted after : List Char,
    source.text.toList = before ++ after ∧ other.text.toList = before ++ inserted ++ after ∧
      ((∀ character ∈ inserted, Token.Rule.isSeparator character = true) ∧
          (∃ tokens token, source.tokens = .ok tokens ∧ token ∈ tokens ∧
            (Token.byteLength before = token.span.start ∨
              Token.byteLength before = token.span.stop)) ∨
        (∃ words, inserted = ' ' :: '/' :: '/' :: words ∧ '\n' ∉ words) ∧
          ∀ next ∈ after.head?, next = '\n')

/-- One piece of layout changes no kind and no value. -/
theorem GainsLayout.exists_tokens
    {source other : Source}
    (gains : GainsLayout source other)
    {tokens : List Token}
    (scanned : source.tokens = .ok tokens) :
    ∃ others, other.tokens = .ok others ∧
      others.map Token.content = tokens.map Token.content := by
  obtain ⟨before, inserted, after, whole, otherWhole, place⟩ := gains
  obtain ⟨lexemes, scans, made⟩ := Token.exists_scans_of_scan (tokens_eq_ok.mp scanned)
  rw [whole] at scans
  -- The layout is put in between two lexemes.
  obtain ⟨first, second, rfl, rfl⟩ :
      ∃ first second, lexemes = first ++ second ∧ before = Token.joined first := by
    rcases place with ⟨-, _, token, scannedAgain, member, isEnd⟩ | ⟨-, endsLine⟩
    · rw [scanned, Except.ok.injEq] at scannedAgain
      rw [← scannedAgain, made] at member
      obtain ⟨first, second, rfl, bytes⟩ := Token.exists_split_of_mem_tokensOf member isEnd
      rw [Nat.zero_add] at bytes
      have cut := scans.eq_joined
      rw [List.append_nil, Token.joined, List.flatMap_append] at cut
      exact ⟨first, second, rfl, Token.eq_of_byteLength_eq cut bytes⟩
    · exact scans.exists_split_of_endsLine endsLine
  obtain ⟨others, otherScans, same⟩ : ∃ others,
      Token.Scans (Token.joined first ++ (inserted ++ after)) others [] ∧
        Token.kept others = Token.kept (first ++ second) := by
    rcases place with ⟨separate, -⟩ | ⟨⟨words, rfl, onOneLine⟩, endsLine⟩
    · by_cases isEmpty : inserted = []
      · exact ⟨first ++ second, by rwa [isEmpty], rfl⟩
      · exact (Token.fits_of_separators isEmpty separate scans.second).exists_insert scans
    · exact (Token.fits_of_comment onOneLine endsLine scans.second).exists_insert scans
  refine ⟨Token.tokensOf false 0 others, ?_, ?_⟩
  · rw [tokens_eq_ok, otherWhole, List.append_assoc]
    exact otherScans.scan_eq false 0
  · rw [made, Token.map_content_tokensOf others false 0 0, same,
      ← Token.map_content_tokensOf (first ++ second) false 0 0]

/-- Layout inside the lines makes no difference: however many pieces of it are put into a
source that has tokens, it keeps their kinds and values. -/
theorem layout_is_irrelevant
    {source other : Source}
    {tokens : List Token}
    (scanned : source.tokens = .ok tokens)
    (gains : Relation.ReflTransGen GainsLayout source other) :
    ∃ others, other.tokens = .ok others ∧
      others.map Token.content = tokens.map Token.content := by
  induction gains with
  | refl => exact ⟨tokens, scanned, rfl⟩
  | tail _ gains ih =>
      obtain ⟨between, betweenScanned, same⟩ := ih
      obtain ⟨others, otherScanned, sameAgain⟩ := gains.exists_tokens betweenScanned
      exact ⟨others, otherScanned, sameAgain.trans same⟩

/-- Without any layout but the newline. -/
def crowded : Source :=
  .ofText "x==y/\n2" none

/-- The same with blanks between two tokens, and a comment behind a slash. -/
def spacedOut : Source :=
  .ofText "x== \t\ry/ // of\n2" none

theorem layout_is_irrelevant_spacedOut :
    ∃ tokens others, crowded.tokens = .ok tokens ∧
      Relation.ReflTransGen GainsLayout crowded spacedOut ∧
      spacedOut.tokens = .ok others ∧
      others.map Token.content = tokens.map Token.content ∧
      tokens.map Token.content =
        [(.identifier, "x"), (.equals, "=="), (.identifier, "y"), (.slash, "/"), (.int, "2"),
          (.semicolon, "\n"), (.endOfFile, "EOF")] := by
  have scanned : ∃ tokens, crowded.tokens = .ok tokens ∧
      (∃ token ∈ tokens, token.span.stop = 3) ∧
      tokens.map Token.content =
        [(.identifier, "x"), (.equals, "=="), (.identifier, "y"), (.slash, "/"), (.int, "2"),
          (.semicolon, "\n"), (.endOfFile, "EOF")] :=
    ⟨_, by cbv, ⟨_, List.mem_cons_of_mem _ List.mem_cons_self, by cbv⟩, by cbv⟩
  obtain ⟨tokens, scanned, ⟨token, member, stop⟩, contents⟩ := scanned
  have blanks : GainsLayout crowded (.ofText "x== \t\ry/\n2" none) :=
    ⟨"x==".toList, [' ', '\t', '\r'], "y/\n2".toList, rfl, rfl,
      .inl ⟨by simp [Token.Rule.isSeparator], tokens, token, scanned, member,
        .inr (by rw [stop]; decide)⟩⟩
  have comment : GainsLayout (.ofText "x== \t\ry/\n2" none) spacedOut :=
    ⟨"x== \t\ry/".toList, " // of".toList, ['\n', '2'], rfl, rfl,
      .inr ⟨⟨" of".toList, rfl, by decide⟩, by simp⟩⟩
  have gains := (Relation.ReflTransGen.single blanks).tail comment
  obtain ⟨others, otherScanned, same⟩ := layout_is_irrelevant scanned gains
  exact ⟨tokens, others, scanned, gains, otherScanned, same, contents⟩

end Source

end Frontend
