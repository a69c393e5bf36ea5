import Frontend.Proofs.Grammar.Leaves
import Frontend.Proofs.Grammar.Legible
import Frontend.Proofs.Syntax.Reading
import Frontend.Proofs.Token.Standing

/-!
# Dumps tell trees apart

Sources with the same dump have trees with the same outline: the tags are the same, with
those of the wrappers that the dump does not show, and the leaves have the same kinds and
texts.
-/

namespace Frontend

/-! ## The texts of leaves -/

namespace Token

namespace Rule

variable {text lexeme : List Char}

theorem isPlain_of_continuesWord
    {character : Char}
    (continues : continuesWord character = true) :
    Nested.isPlain character = true := by
  by_contra different
  simp only [Nested.isPlain, Bool.not_eq_true', Bool.not_eq_false, Bool.or_eq_true,
    beq_iff_eq] at different
  rcases different with ((rfl | rfl) | rfl) | rfl <;> cases continues

theorem isPlain_of_isDigit
    {character : Char}
    (isDigit : character.isDigit = true) :
    Nested.isPlain character = true := by
  apply isPlain_of_continuesWord
  simp [continuesWord, Char.isAlphanum, isDigit]

/-- A numeral has digits and at most a point. -/
theorem isPlain_of_mem_numeral (text : List Char) :
    ∀ character ∈ numeral text, Nested.isPlain character = true := by
  have digits (text : List Char) :
      ∀ character ∈ text.takeWhile Char.isDigit, Nested.isPlain character = true :=
    fun character member => isPlain_of_isDigit (List.mem_takeWhile_imp member)
  fun_cases numeral text with
  | case1 => exact digits text
  | case2 whole rest _ _ =>
      rw [List.forall_mem_append, List.forall_mem_cons]
      exact ⟨digits text, rfl, digits rest⟩
  | case3 => exact digits text

/-- The tag of a leaf that is a word. -/
theorem leafTag?_ofWord
    {word : String}
    {tag : Tag}
    (isLeaf : Parser.leafTag? (Kind.ofWord word) = some tag) :
    tag = if word = "true" ∨ word = "false" then .literal .bool else .identifier := by
  unfold Kind.ofWord at isLeaf
  cases found : Kind.reserved.lookup word with
  | none =>
      have free : ¬ (word = "true" ∨ word = "false") := by
        rintro (rfl | rfl) <;> cases found
      rw [found] at isLeaf
      cases isLeaf
      rw [if_neg free]
  | some kind =>
      obtain ⟨before, after, split, -⟩ := List.lookup_eq_some_iff.mp found
      have listed : (word, kind) ∈ Kind.reserved := by simp [split]
      rw [found, Option.getD_some] at isLeaf
      simp only [Kind.reserved, List.mem_cons, Prod.mk.injEq, List.not_mem_nil, or_false]
        at listed
      rcases listed with ⟨rfl, rfl⟩ | ⟨rfl, rfl⟩ | ⟨rfl, rfl⟩ | ⟨rfl, rfl⟩ | ⟨rfl, rfl⟩ |
          ⟨rfl, rfl⟩ <;> cases isLeaf <;> rfl

/-- The token of a leaf has a text that goes with the tag of the leaf. -/
theorem spells_of_content?
    {rule : Rule}
    (found : first? text = some (rule, lexeme))
    {kind : Kind}
    {value : String}
    (made : rule.content? lexeme = some (kind, value))
    {tag : Tag}
    (isLeaf : Parser.leafTag? kind = some tag) :
    tag.Spells value := by
  have silent : ∀ row ∈ symbols, Parser.leafTag? row.kind = none := by decide
  have taken := lexeme?_of_first? found
  cases rule with
  | word =>
      obtain ⟨isWord, -⟩ := lexeme?_word taken
      cases made
      have plain : ∀ character ∈ lexeme, Nested.isPlain character = true :=
        fun character member => isPlain_of_continuesWord (isWord.continues character member)
      obtain ⟨first, rest, rfl, starts, -⟩ := isWord
      refine .inr ⟨by simpa [Nested.IsWord] using plain, ?_⟩
      rw [Tag.ofSpelling, String.toList_ofList, List.head?_cons, Option.any_some,
        isDigit_of_startsWord starts, if_neg Bool.false_ne_true]
      exact leafTag?_ofWord isLeaf
  | number =>
      obtain ⟨first, rest, rfl, isDigit, rfl⟩ := exists_of_lexeme?_number taken
      have plain := isPlain_of_mem_numeral (first :: rest)
      obtain isNil | ⟨more, isMore, -⟩ :=
        List.prefix_cons_iff.mp (numeral_isPrefix (first :: rest))
      · exact absurd isNil (numeral_ne_nil isDigit)
      rw [isMore] at made plain
      cases made
      refine .inr ⟨by simpa [Nested.IsWord] using plain, ?_⟩
      rw [Tag.ofSpelling, String.toList_ofList, List.head?_cons, Option.any_some, if_pos isDigit]
      split at isLeaf
      next pointed =>
        cases isLeaf
        rw [if_pos pointed]
      next whole =>
        cases isLeaf
        rw [if_neg whole]
  | string =>
      cases made
      cases isLeaf
      exact .inl rfl
  | symbol row =>
      have listed := mem_symbols (first?_eq_some found).1
      cases made
      rw [silent row listed] at isLeaf
      cases isLeaf
  | newline | blanks | comment => cases made

end Rule

/-- The tokens of a text that are leaves have texts that go with their tags. -/
theorem spells_of_mem_tokensOf
    {text left : List Char}
    {lexemes : List (Rule × List Char)}
    (scans : Scans text lexemes left)
    {endable : Bool}
    {offset : Nat}
    {token : Token}
    (member : token ∈ tokensOf endable offset lexemes)
    {tag : Tag}
    (isLeaf : Parser.leafTag? token.kind = some tag) :
    tag.Spells token.value := by
  have notBreak (endable : Bool) (offset : Nat) : token ∉ terminator endable offset := by
    intro member
    rw [terminator] at member
    split at member
    next =>
      cases List.mem_singleton.mp member
      cases isLeaf
    next => cases member
  induction scans generalizing endable offset with
  | stop =>
      rw [tokensOf, List.mem_append, List.mem_singleton] at member
      rcases member with isBreak | rfl
      · exact absurd isBreak (notBreak _ _)
      · cases isLeaf
  | @step rule lexeme rest left later found scans ih =>
      rw [tokensOf, List.mem_append] at member
      rcases member with isFirst | isLater
      · unfold Rule.tokensAt at isFirst
        split at isFirst
        next kind value made =>
          cases List.mem_singleton.mp isFirst
          exact Rule.spells_of_content? found made isLeaf
        next =>
          split at isFirst
          next => exact absurd isFirst (notBreak _ _)
          next => cases isFirst
      · exact ih isLater

end Token

/-! ## The outlines of sources -/

namespace Source

variable {source : Source} {tree : Tree}

/-- The outline of the tree of a source can be read, and it is one that a program can
have. -/
theorem exists_outline_of_tree (made : source.tree = .ok tree) :
    ∃ outline, tree.outline = .ok outline ∧ outline.tag = .root ∧
      ∀ part ∈ outline.parts, part.IsFormed := by
  obtain ⟨stream, streamMade, made⟩ := exists_stream_of_tree made
  have ends := (endsOnce_of_stream streamMade).ends
  obtain ⟨program, represents, derived⟩ := stream.exists_represents ends made
  refine represents.exists_outline ?_
  rintro ⟨tag, mark⟩ isLeaf
  obtain ⟨token, present, leafTag⟩ := derived.exists_leaf isLeaf
  obtain ⟨_, _, _, _, rfl⟩ := (Stream.tree_eq_ok ends).mp made
  refine ⟨token, present, ?_⟩
  obtain ⟨tokens, scanned, rfl⟩ := exists_scan streamMade
  obtain ⟨lexemes, scans, rfl⟩ := Token.exists_scans_of_scan scanned
  have member := List.mem_toArray.mp (Array.mem_of_getElem? present)
  exact Token.spells_of_mem_tokensOf scans member leafTag

/-- The trees of two sources have the same dump just where they have the same outline. -/
theorem dump_is_unambiguous
    {first second : Source}
    {tree other : Tree}
    (made : first.tree = .ok tree)
    (otherMade : second.tree = .ok other) :
    ∃ outline otherOutline text otherText,
      tree.outline = .ok outline ∧ other.outline = .ok otherOutline ∧
        tree.dump = .ok text ∧ other.dump = .ok otherText ∧
        (text = otherText ↔ outline = otherOutline) := by
  obtain ⟨outline, read, isRoot, formed⟩ := exists_outline_of_tree made
  obtain ⟨otherOutline, otherRead, otherIsRoot, otherFormed⟩ := exists_outline_of_tree otherMade
  refine ⟨outline, otherOutline, outline.dump, otherOutline.dump, read, otherRead,
    Tree.dump_eq read, Tree.dump_eq otherRead, fun same => ?_, fun same => by rw [same]⟩
  exact Outline.eq_of_dump_eq formed otherFormed (by rw [isRoot, otherIsRoot]) same

/-- A string literal. -/
def quotedLetter : Source :=
  .ofText "\"a\"" none

/-- An identifier with the same value. -/
def bareLetter : Source :=
  .ofText "(a)" none

theorem dump_is_unambiguous_letter :
    ∃ tree other text otherText,
      quotedLetter.tree = .ok tree ∧ bareLetter.tree = .ok other ∧
        tree.dump = .ok text ∧ other.dump = .ok otherText ∧ text ≠ otherText := by
  obtain ⟨tree, other, made, otherMade, read, otherRead⟩ :
      ∃ tree other, quotedLetter.tree = .ok tree ∧ bareLetter.tree = .ok other ∧
        tree.outline = .ok (.node none .root [.node none .evaluate
          [.node none .expression [.leaf (.literal .string) (some "a")]]]) ∧
        other.outline = .ok (.node none .root [.node none .evaluate
          [.node none .expression [.leaf .identifier (some "a")]]]) := by
    refine ⟨_, _, by cbv, by cbv, ?_, ?_⟩ <;> cbv
  obtain ⟨outline, otherOutline, text, otherText, isRead, otherIsRead, dumped, otherDumped,
    told⟩ := dump_is_unambiguous made otherMade
  refine ⟨tree, other, text, otherText, made, otherMade, dumped, otherDumped, fun same => ?_⟩
  cases read.symm.trans isRead
  cases otherRead.symm.trans otherIsRead
  cases told.mp same

end Source
end Frontend
