import Frontend.Proofs.Token.Lexemes
import Mathlib

/-!
# Where tokens stand

An identifier stands in the text at its offset, as a whole word. The character at
which scanning gives up stands at its offset, and neither breaks nor ends a line.
Tokens stand in the text one after the other.
-/

namespace Frontend
namespace Token

namespace Rule

/-- A letter or underscore, and then characters that go on with a word. -/
def IsWord (word : List Char) : Prop :=
  ∃ first rest, word = first :: rest ∧ startsWord first = true ∧
    ∀ character ∈ rest, continuesWord character = true

/-- What starts a word also goes on with one. -/
theorem continuesWord_of_startsWord
    {character : Char}
    (starts : startsWord character = true) :
    continuesWord character = true := by
  simp only [startsWord, continuesWord, Char.isAlphanum, Bool.or_eq_true] at starts ⊢
  exact starts.imp_left .inl

/-- No digit starts a word. -/
theorem isDigit_of_startsWord
    {character : Char}
    (starts : startsWord character = true) :
    character.isDigit = false := by
  rw [startsWord, Bool.or_eq_true, beq_iff_eq] at starts
  rcases starts with isLetter | rfl
  · grind [Char.isAlpha, Char.isUpper, Char.isLower, Char.isDigit]
  · decide

theorem IsWord.continues
    {word : List Char}
    (isWord : IsWord word) :
    ∀ character ∈ word, continuesWord character = true := by
  obtain ⟨first, rest, rfl, starts, goesOn⟩ := isWord
  rw [List.forall_mem_cons]
  exact ⟨continuesWord_of_startsWord starts, goesOn⟩

/-- Only a word that is not reserved makes an identifier. -/
theorem content?_eq_identifier
    {rule : Rule}
    (listed : rule ∈ all)
    {lexeme : List Char}
    {value : String}
    (found : rule.content? lexeme = some (.identifier, value)) :
    rule = .word ∧ value = String.ofList lexeme := by
  have proper : ∀ row ∈ symbols, row.kind ≠ .identifier := by
    decide
  cases rule with
  | word =>
      simp only [content?, Option.some.injEq, Prod.mk.injEq] at found
      exact ⟨rfl, found.2.symm⟩
  | number =>
      simp only [content?, Option.some.injEq, Prod.mk.injEq] at found
      split at found <;> simp at found
  | string => simp [content?] at found
  | symbol row =>
      simp only [content?, Option.some.injEq, Prod.mk.injEq] at found
      exact absurd found.1 (proper row (mem_symbols listed))
  | newline => cases found
  | blanks => cases found
  | comment => cases found

/-- The rule for words takes a whole word. -/
theorem lexeme?_word
    {text word : List Char}
    (found : lexeme? .word text = some word) :
    IsWord word ∧ ∃ after, text = word ++ after ∧
      ∀ next ∈ after.head?, continuesWord next = false := by
  obtain ⟨first, rest, rfl, starts, rfl⟩ := exists_of_lexeme?_word found
  refine ⟨⟨first, _, rfl, starts, fun character => List.mem_takeWhile_imp⟩,
    rest.dropWhile continuesWord, ?_, dropWhile_stops continuesWord rest⟩
  rw [List.cons_append, List.takeWhile_append_dropWhile]

/-- A character at which no rule applies neither breaks nor ends a line. -/
theorem ne_of_first?_eq_none
    {character : Char}
    {rest : List Char}
    (none : first? (character :: rest) = none) :
    character ≠ '\n' ∧ character ≠ '\r' := by
  have never : ∀ rule ∈ all, rule.lexeme? (character :: rest) = Option.none := by
    simpa [first?, List.findSome?_eq_none_iff] using none
  constructor
  · rintro rfl
    have newline := never .newline (by simp [all])
    simp [lexeme?] at newline
  · rintro rfl
    have blanks := never .blanks (by simp [all])
    simp [lexeme?, isSeparator] at blanks

end Rule

/-- A whole word stands in the text at this offset. -/
def IsWordAt (text : List Char) (offset : Nat) (word : List Char) : Prop :=
  ∃ before after, text = before ++ word ++ after ∧ byteLength before = offset ∧
    Rule.IsWord word ∧ ∀ next ∈ after.head?, Rule.continuesWord next = false

theorem IsWordAt.append
    {text word : List Char}
    {offset : Nat}
    (isWord : IsWordAt text offset word)
    (earlier : List Char) :
    IsWordAt (earlier ++ text) (byteLength earlier + offset) word := by
  obtain ⟨before, after, rfl, rfl, spelled, ended⟩ := isWord
  exact ⟨earlier ++ before, after, by simp, byteLength_append _ _, spelled, ended⟩

/-- Identifiers stand in the text as whole words. -/
theorem isWordAt_of_scan
    {endable : Bool}
    {offset : Nat}
    {text : List Char}
    {tokens : List Token}
    (scanned : scan endable offset text = .ok tokens) :
    ∀ token ∈ tokens, token.kind = .identifier ->
      ∃ place, token.span.start = offset + place ∧
        IsWordAt text place token.value.toList := by
  obtain ⟨lexemes, scans, rfl⟩ := exists_scans_of_scan scanned
  clear scanned
  induction lexemes generalizing endable offset text with
  | nil => cases endable <;> simp [tokensOf, terminator, lineBreak, endOfFile]
  | cons first later ih =>
      cases scans with
      | @step rule lexeme rest _ _ found scans =>
          rw [tokensOf, List.forall_mem_append]
          refine ⟨fun token member isIdentifier => ?_, fun token member isIdentifier => ?_⟩
          · rcases Rule.mem_tokensAt member with ⟨kind, value, content, rfl⟩ | rfl
            · cases isIdentifier
              obtain ⟨rfl, rfl⟩ :=
                Rule.content?_eq_identifier (Rule.first?_eq_some found).1 content
              obtain ⟨isWord, unread, split, ended⟩ :=
                Rule.lexeme?_word (Rule.lexeme?_of_first? found)
              rw [String.toList_ofList]
              exact ⟨0, rfl, [], unread, split, rfl, isWord, ended⟩
            · cases isIdentifier
          · obtain ⟨place, start, isWord⟩ := ih scans token member isIdentifier
            exact ⟨byteLength lexeme + place, by omega, isWord.append lexeme⟩

/-- Scanning gives up at a character of the text at which no rule applies. -/
theorem exists_of_scan_eq_error
    {endable : Bool}
    {offset : Nat}
    {text : List Char}
    {unrecognised : Unrecognised}
    (scanned : scan endable offset text = .error unrecognised) :
    ∃ before after,
      text = before ++ unrecognised.character :: after ∧
        unrecognised.offset = offset + byteLength before ∧
        Rule.first? (unrecognised.character :: after) = none := by
  obtain ⟨lexemes, left, scans, stuck⟩ := exists_scans text
  cases left with
  | nil =>
      rw [scans.scan_eq] at scanned
      cases scanned
  | cons character rest =>
      have never := stuck (List.cons_ne_nil character rest)
      rw [scans.scan_eq_error never] at scanned
      cases scanned
      exact ⟨joined lexemes, rest, scans.eq_joined, rfl, never⟩

/-! ## The order of tokens -/

/-- The tokens follow each other from an offset on, and identifiers are not empty. -/
def AreOrdered (offset : Nat) : List Token -> Prop
  | [] => True
  | token :: later =>
      offset ≤ token.span.start ∧ token.span.start ≤ token.span.stop ∧
        (token.kind = .identifier -> token.span.start < token.span.stop) ∧
        AreOrdered token.span.stop later

namespace AreOrdered

variable {offset : Nat} {tokens : List Token}

theorem mono
    (ordered : AreOrdered offset tokens)
    {earlier : Nat}
    (before : earlier ≤ offset) :
    AreOrdered earlier tokens := by
  cases tokens with
  | nil => exact ordered
  | cons token later => exact ⟨Nat.le_trans before ordered.1, ordered.2⟩

theorem terminator (ordered : AreOrdered offset tokens) (endable : Bool) :
    AreOrdered offset (Token.terminator endable offset ++ tokens) := by
  cases endable with
  | false => exact ordered
  | true => exact ⟨Nat.le_refl offset, Nat.le_refl offset, by simp [lineBreak], ordered⟩

/-- No token starts before the offset, and whatever follows an identifier starts after
it. -/
theorem pairwise (ordered : AreOrdered offset tokens) :
    (∀ token ∈ tokens, offset ≤ token.span.start) ∧
      tokens.Pairwise fun first second =>
        first.kind = .identifier -> first.span.start < second.span.start := by
  induction tokens generalizing offset with
  | nil => simp
  | cons token later ih =>
      obtain ⟨above, forward, nonempty, laterOrdered⟩ := ordered
      obtain ⟨laterAbove, laterPairwise⟩ := ih laterOrdered
      rw [List.forall_mem_cons, List.pairwise_cons]
      refine ⟨⟨above, fun other member => ?_⟩, fun other member isIdentifier => ?_,
        laterPairwise⟩
      · exact Nat.le_trans above (Nat.le_trans forward (laterAbove other member))
      · exact Nat.lt_of_lt_of_le (nonempty isIdentifier) (laterAbove other member)

end AreOrdered

/-- The tokens of a text follow each other. -/
theorem areOrdered_of_scan
    {endable : Bool}
    {offset : Nat}
    {text : List Char}
    {tokens : List Token}
    (scanned : scan endable offset text = .ok tokens) :
    AreOrdered offset tokens := by
  obtain ⟨lexemes, scans, rfl⟩ := exists_scans_of_scan scanned
  clear scanned
  induction lexemes generalizing endable offset text with
  | nil => exact AreOrdered.terminator (by simp [AreOrdered, endOfFile]) endable
  | cons first later ih =>
      cases scans with
      | step found scans =>
          have forward := byteLength_pos (Rule.first?_eq_some found).2.2
          rw [tokensOf, Rule.tokensAt]
          split
          next => exact ⟨Nat.le_refl _, Nat.le_add_right _ _, fun _ => by simpa,
            ih scans⟩
          next =>
            split
            · exact ((ih scans).mono (Nat.le_add_right _ _)).terminator endable
            · exact (ih scans).mono (Nat.le_add_right _ _)

/-- No token of the lexemes starts before them. -/
theorem Scans.le_start
    {text : List Char}
    {lexemes : List (Rule × List Char)}
    (scans : Scans text lexemes [])
    {endable : Bool}
    {offset : Nat}
    {token : Token}
    (member : token ∈ tokensOf endable offset lexemes) :
    offset ≤ token.span.start :=
  (areOrdered_of_scan (scans.scan_eq endable offset)).pairwise.1 token member

end Token
end Frontend
