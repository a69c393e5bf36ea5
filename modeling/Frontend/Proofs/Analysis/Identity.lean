import Frontend.Proofs.Analysis.Pointing
import Frontend.Proofs.Types.Principal

/-!
# Names identify declarations

A qualified name is one text, in which numbers, a word and a number follow each other
with separators between them. The text can be taken apart again in just one way, so it
tells in which scopes, by which text and at which node a name is declared. In the table
of names of a source each declaration is found by its own name, and every usage by the
name of its declaration.
-/

namespace Frontend

/-! ## Taking a name apart -/

/-- A list has just one longest part at its start in which all items are of a kind. -/
theorem eq_and_eq_of_append_cons_eq
    {Item : Type}
    {isInside : Item -> Bool}
    {first second rest other : List Item}
    {stop otherStop : Item}
    (inside : ∀ item ∈ first, isInside item = true)
    (otherInside : ∀ item ∈ second, isInside item = true)
    (outside : isInside stop = false)
    (otherOutside : isInside otherStop = false)
    (same : first ++ stop :: rest = second ++ otherStop :: other) :
    first = second ∧ rest = other := by
  have taken := congrArg (List.takeWhile isInside) same
  rw [List.takeWhile_append_of_pos inside, List.takeWhile_append_of_pos otherInside,
    List.takeWhile_cons_of_neg (by simp [outside]),
    List.takeWhile_cons_of_neg (by simp [otherOutside]), List.append_nil, List.append_nil]
    at taken
  rw [taken, List.append_cancel_left_eq, List.cons.injEq] at same
  exact ⟨taken, same.2⟩

theorem isDigit_of_mem_toDigits
    {number : Nat}
    {digit : Char}
    (member : digit ∈ Nat.toDigits 10 number) :
    digit.isDigit = true :=
  Nat.isDigit_of_mem_toDigits (by decide) (by decide) member

theorem eq_of_toDigits_eq
    {number other : Nat}
    (same : Nat.toDigits 10 number = Nat.toDigits 10 other) :
    number = other := by
  rw [← @Nat.ofDigitChars_ten_toDigits number, same, Nat.ofDigitChars_ten_toDigits]

namespace QualifiedName

/-- The text of a name that is declared in no scope. -/
theorem toList_text_ofParts_nil (lexeme : String) (node : NodeId) :
    (ofParts [] lexeme node).text.toList = lexeme.toList ++ '#' :: Nat.toDigits 10 node := by
  have sameText : toString lexeme = lexeme := rfl
  have sameSign : toString "#" = "#" := rfl
  simp [ofParts, sameText, sameSign]

/-- The text of a name starts with the number of the outermost scope. -/
theorem toList_text_ofParts_cons
    (scope : NodeId)
    (scopes : List NodeId)
    (lexeme : String)
    (node : NodeId) :
    (ofParts (scope :: scopes) lexeme node).text.toList =
      Nat.toDigits 10 scope ++ ':' :: ':' :: (ofParts scopes lexeme node).text.toList := by
  have sameSign : toString "::" = "::" := rfl
  simp [ofParts, sameSign]

variable
  {scopes otherScopes : List NodeId}
  {lexeme otherLexeme : String}
  {node other : NodeId}

/-- A name that is declared in no scope starts with its word, any other one with a
number. -/
theorem toList_text_ofParts_nil_ne
    (isWord : Token.Rule.IsWord lexeme.toList)
    (scope : NodeId) :
    (ofParts [] lexeme node).text.toList ≠
      (ofParts (scope :: scopes) otherLexeme other).text.toList := by
  obtain ⟨letter, letters, spelled, starts, -⟩ := isWord
  obtain ⟨digit, digits, written⟩ :=
    List.exists_cons_of_ne_nil (@Nat.toDigits_ne_nil scope 10)
  rw [toList_text_ofParts_nil, toList_text_ofParts_cons, spelled, written]
  intro same
  have sameFirst : letter = digit := (List.cons.inj same).1
  have isDigit : digit.isDigit = true :=
    isDigit_of_mem_toDigits (by rw [written]; exact List.mem_cons_self)
  rw [← sameFirst, Token.Rule.isDigit_of_startsWord starts] at isDigit
  cases isDigit

/-- The text of a name of a word tells its scopes, its word and its node. -/
theorem ofParts_unique
    (isWord : Token.Rule.IsWord lexeme.toList)
    (otherIsWord : Token.Rule.IsWord otherLexeme.toList)
    (same : (ofParts scopes lexeme node).text.toList =
      (ofParts otherScopes otherLexeme other).text.toList) :
    scopes = otherScopes ∧ lexeme = otherLexeme ∧ node = other := by
  induction scopes generalizing otherScopes with
  | nil =>
      cases otherScopes with
      | nil =>
          rw [toList_text_ofParts_nil, toList_text_ofParts_nil] at same
          obtain ⟨sameWord, sameDigits⟩ := eq_and_eq_of_append_cons_eq
            isWord.continues otherIsWord.continues (by decide) (by decide) same
          exact ⟨rfl, String.toList_injective sameWord, eq_of_toDigits_eq sameDigits⟩
      | cons scope otherScopes => exact absurd same (toList_text_ofParts_nil_ne isWord scope)
  | cons scope scopes ih =>
      cases otherScopes with
      | nil => exact absurd same.symm (toList_text_ofParts_nil_ne otherIsWord scope)
      | cons otherScope otherScopes =>
          rw [toList_text_ofParts_cons, toList_text_ofParts_cons] at same
          obtain ⟨sameDigits, sameRest⟩ := eq_and_eq_of_append_cons_eq
            (fun _ => isDigit_of_mem_toDigits) (fun _ => isDigit_of_mem_toDigits)
            (by decide) (by decide) same
          obtain ⟨sameScopes, sameParts⟩ :=
            ih (List.cons.inj sameRest).2
          rw [eq_of_toDigits_eq sameDigits, sameScopes]
          exact ⟨rfl, sameParts⟩

end QualifiedName

/-! ## Names in the table -/

/-- The name is made of the scopes around a record of the node, of the text of the node
and of its number. -/
def Resolution.Spells
    (tree : Tree)
    (resolution : Resolution)
    (name : QualifiedName)
    (node : NodeId) : Prop :=
  ∃ id declaration path lexeme,
    resolution.scopes.declarations[id]? = some declaration ∧
      declaration.isBinding = true ∧ declaration.node = node ∧
      resolution.scopes.path id = .ok path ∧ tree.text node = .ok lexeme ∧
      name = .ofParts path lexeme node

/-- Every name by which the table finds a declaration is spelled by a record of it. -/
def Resolution.SpellsAll (tree : Tree) (resolution : Resolution) (table : NameTable) : Prop :=
  ∀ name node, table.node? name = some node -> resolution.Spells tree name node

namespace Resolution

variable {tree : Tree} {resolution : Resolution} {table next : NameTable}

theorem SpellsAll.nameDeclaration
    (spelled : resolution.SpellsAll tree table)
    {declaration : Declaration}
    {id : DeclId}
    (present : resolution.scopes.declarations[id]? = some declaration)
    (made : resolution.nameDeclaration tree table (declaration, id) = .ok next) :
    resolution.SpellsAll tree next := by
  simp only [Resolution.nameDeclaration] at made
  split at made
  next isBinding =>
    obtain ⟨path, pathRead, made⟩ := exists_of_bind_eq_ok made
    obtain ⟨lexeme, textRead, made⟩ := exists_of_bind_eq_ok made
    cases made
    intro name node found
    rw [NameTable.node?, NameTable.declare, Std.HashMap.getElem?_insert] at found
    split at found
    next same =>
      cases found
      exact ⟨id, declaration, path, lexeme, present, isBinding, rfl, pathRead, textRead,
        (eq_of_beq same).symm⟩
    next => exact spelled name node found
  next =>
    cases made
    exact spelled

theorem SpellsAll.nameUsage
    (spelled : resolution.SpellsAll tree table)
    {usage : Usage}
    (made : resolution.nameUsage table usage = .ok next) :
    resolution.SpellsAll tree next := by
  obtain ⟨declaration, -, made⟩ := exists_of_bind_eq_ok made
  cases made
  unfold NameTable.use
  split
  · exact spelled
  · exact spelled

/-- The names of a finished walk are spelled by its records. -/
theorem spellsAll_of_names
    {names : NameTable}
    (named : resolution.names tree = .ok names) :
    resolution.SpellsAll tree names := by
  obtain ⟨declared, declaredMade, named⟩ := exists_of_bind_eq_ok named
  rw [← Array.foldlM_toList] at named
  refine foldlM_preserves (fun _ spelled => spelled.nameUsage) ?_ named
  refine foldlM_preserves ?_ (by simp [SpellsAll, NameTable.node?]) declaredMade
  rintro table ⟨declaration, id⟩ next member spelled made
  refine spelled.nameDeclaration ?_ made
  rw [← Array.getElem?_toList]
  exact List.mem_zipIdx_iff_getElem?.mp member

/-- Declarations and usages of a program have names that identify the declarations. -/
structure Identifies (tree : Tree) (resolution : Resolution) (names : NameTable) : Prop where
  /-- A declaration has a name that is made of its scopes, its word and its node. -/
  spelled : ∀ node ∈ names.declarations, ∃ name lexeme,
    names.name? node = some name ∧ resolution.Spells tree name node ∧
      tree.text node = .ok lexeme ∧ Token.Rule.IsWord lexeme.toList
  distinct : ∀ node ∈ names.declarations, ∀ other ∈ names.declarations,
    node ≠ other -> names.name? node ≠ names.name? other
  found : ∀ node ∈ names.declarations, (names.name? node).bind names.node? = some node
  shared : ∀ user declaration, (user, declaration) ∈ names.usages ->
    names.name? user = names.name? declaration ∧ names.declarationOf? user = some declaration
  named : ∀ node, (∃ name, names.name? node = some name) ↔
    node ∈ names.declarations ∨ ∃ declaration, (node, declaration) ∈ names.usages

end Resolution

/-- A table that covers declarations and usages identifies the declarations. -/
theorem NameTable.Covers.identifies
    {names : NameTable}
    {tree : Tree}
    {resolution : Resolution}
    {declared : List NodeId}
    {used : List (NodeId × NodeId)}
    (covers : names.Covers declared used)
    (named : resolution.names tree = .ok names)
    (words : ∀ node ∈ declared, ∃ lexeme,
      tree.text node = .ok lexeme ∧ Token.Rule.IsWord lexeme.toList) :
    resolution.Identifies tree names := by
  have declaredIff : ∀ node, node ∈ names.declarations ↔ node ∈ declared := by
    intro node
    rw [← Array.mem_toList_iff, covers.declarations]
  have usedIff : ∀ pair, pair ∈ names.usages ↔ pair ∈ used := by
    intro pair
    rw [← Array.mem_toList_iff, covers.usages]
  refine ⟨?_, ?_, ?_, ?_, ?_⟩
  · intro node member
    rw [declaredIff] at member
    obtain ⟨name, isName, found⟩ := Option.bind_eq_some_iff.mp (covers.found node member)
    obtain ⟨lexeme, text, isWord⟩ := words node member
    exact ⟨name, lexeme, isName, Resolution.spellsAll_of_names named name node found, text, isWord⟩
  · intro node member other otherMember different same
    rw [declaredIff] at member otherMember
    exact different (covers.eq_of_name?_eq member otherMember same)
  · intro node member
    exact covers.found node ((declaredIff node).mp member)
  · intro user declaration member
    rw [usedIff] at member
    have same := covers.usedName _ member
    refine ⟨same, ?_⟩
    rw [NameTable.declarationOf?, same]
    exact covers.found declaration (covers.referred _ member)
  · intro node
    simp only [declaredIff, usedIff]
    constructor
    · rintro ⟨name, isName⟩
      refine (covers.mem_of_name? isName).imp_right fun member => ?_
      obtain ⟨⟨user, declaration⟩, listed, rfl⟩ := List.mem_map.mp member
      exact ⟨declaration, listed⟩
    · rintro (member | ⟨declaration, member⟩)
      · obtain ⟨scopes, lexeme, isName⟩ := covers.declaredName node member
        exact ⟨_, isName⟩
      · obtain ⟨scopes, lexeme, isName⟩ :=
          covers.declaredName declaration (covers.referred _ member)
        exact ⟨_, (covers.usedName _ member).trans isName⟩

namespace Source

/-- The identifiers of a source are words. -/
theorem exists_word_of_tag
    {source : Source}
    {tree : Tree}
    (made : source.tree = .ok tree)
    {node : NodeId}
    (isIdentifier : ∃ found, tree.nodes[node]? = some found ∧ found.tag = .identifier) :
    ∃ lexeme, tree.text node = .ok lexeme ∧ Token.Rule.IsWord lexeme.toList := by
  obtain ⟨stream, streamMade, streamTree⟩ := exists_stream_of_tree made
  obtain ⟨token, text, ⟨_, _, -, -, spelled, -⟩, -⟩ :=
    isWordAt_of_isName streamMade streamTree (.inl isIdentifier)
  exact ⟨token.value, text, spelled⟩

/-- The declarations and usages of a source that can be read are those of lexical scoping,
their names identify the declarations, and the text of a name tells apart the scopes, the
word and the node of which it is made. -/
theorem names_identify_declarations :
    (∀ (source : Source) (tree : Tree),
      source.tree = .ok tree -> tree.Addressable ->
        ∃ stream program resolution names,
          source.stream = .ok stream ∧ stream.Derives (program.map Mark.token) ∧
            tree.Represents program ∧ tree.resolution = .ok resolution ∧
            resolution.names tree = .ok names ∧ resolution.IsLexical tree program names ∧
            resolution.Identifies tree names) ∧
      ∀ (scopes otherScopes : List NodeId) (lexeme otherLexeme : String) (node other : NodeId),
        Token.Rule.IsWord lexeme.toList -> Token.Rule.IsWord otherLexeme.toList ->
          QualifiedName.ofParts scopes lexeme node =
              .ofParts otherScopes otherLexeme other ->
            scopes = otherScopes ∧ lexeme = otherLexeme ∧ node = other := by
  constructor
  · intro source tree made addressable
    obtain ⟨stream, program, streamMade, derived, legible⟩ := exists_legible made addressable
    obtain ⟨resolution, names, resolved, named, isLexical, covers⟩ := legible.exists_names
    refine ⟨stream, program, resolution, names, streamMade, derived, legible.represents,
      resolved, named, isLexical, covers.identifies named fun node member => ?_⟩
    exact exists_word_of_tag made
      ((isLexical.identifiers node).mp (Finding.declared_subset _ member))
  · intro scopes otherScopes lexeme otherLexeme node other isWord otherIsWord same
    exact QualifiedName.ofParts_unique isWord otherIsWord (by rw [same])

/-- One text for a function, its parameter and the variables of two blocks. -/
def layered : Source :=
  .ofText "fn x(x) \x7b \x7b var x = x \x7d var x = x \x7d" none

theorem names_identify_declarations_layered :
    (∃ tree stream program resolution names,
      layered.tree = .ok tree ∧ tree.Addressable ∧ layered.stream = .ok stream ∧
        stream.Derives (program.map Mark.token) ∧ tree.Represents program ∧
        tree.resolution = .ok resolution ∧ resolution.names tree = .ok names ∧
        names.declarations = #[1, 2, 3, 8] ∧ names.usages = #[(4, 3), (9, 8)] ∧
        names.declarations.toList.map names.name? =
          [some ⟨"0::x#1"⟩, some ⟨"0::13::x#2"⟩, some ⟨"0::13::12::7::x#3"⟩,
            some ⟨"0::13::12::x#8"⟩] ∧
        resolution.IsLexical tree program names ∧ resolution.Identifies tree names) ∧
      Token.Rule.IsWord "x1".toList ∧
      ∀ scopes node, QualifiedName.ofParts [0, 12] "x1" 3 = .ofParts scopes "x1" node ->
        scopes = [0, 12] ∧ node = 3 := by
  have isWord : Token.Rule.IsWord "x1".toList :=
    ⟨'x', ['1'], rfl, rfl, by simp [Token.Rule.continuesWord]⟩
  refine ⟨?_, isWord, fun scopes node same => ?_⟩
  · obtain ⟨tree, made, addressable, found⟩ :
        ∃ tree, layered.tree = .ok tree ∧ tree.Addressable ∧
          (do
            let names <- (<- tree.resolution).names tree
            return (names.declarations, names.usages,
              names.declarations.toList.map names.name?)) =
            .ok (#[1, 2, 3, 8], #[(4, 3), (9, 8)],
              [some ⟨"0::x#1"⟩, some ⟨"0::13::x#2"⟩, some ⟨"0::13::12::7::x#3"⟩,
                some ⟨"0::13::12::x#8"⟩]) := by
      refine ⟨_, by cbv, ⟨?_, ?_⟩, ?_⟩ <;> cbv
    obtain ⟨stream, program, resolution, names, streamMade, derived, represents, resolved,
      named, isLexical, identifies⟩ := names_identify_declarations.1 _ tree made addressable
    simp only [resolved, named, bind, Except.bind, pure, Except.pure, Except.ok.injEq,
      Prod.mk.injEq] at found
    exact ⟨tree, stream, program, resolution, names, made, addressable, streamMade, derived,
      represents, resolved, named, found.1, found.2.1, found.2.2, isLexical, identifies⟩
  · obtain ⟨sameScopes, -, sameNode⟩ :=
      names_identify_declarations.2 _ _ _ _ _ _ isWord isWord same
    exact ⟨sameScopes.symm, sameNode.symm⟩

end Source

end Frontend
