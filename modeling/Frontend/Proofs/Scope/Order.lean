import Frontend.Proofs.Grammar.Leaves
import Frontend.Proofs.Scope.Naming
import Frontend.Proofs.Source.Place
import Frontend.Proofs.Token.Standing

/-!
# Names in the order of the text

Resolution looks at the identifiers of a program in the order of the text, and at each
of them once. Their tokens stand in the text one after the other, and so do their
places. Hence what is reported about names is reported in the order of the places.
-/

namespace Frontend

/-! ## Identifiers are leaves -/

namespace Outline

variable {Label : Type}

/-- The labels of the leaves that are identifiers. -/
def identifiers (outline : Outline Label) : List Label :=
  (outline.leaves.filter (·.1 = .identifier)).map Prod.snd

theorem identifiers_node
    {tag : Tag}
    (inner : tag.isLeaf = false)
    (label : Label)
    (children : List (Outline Label)) :
    (node label tag children).identifiers = (children.map identifiers).flatten := by
  rw [identifiers, leaves_node_of_not_isLeaf inner, List.filter_flatten, List.map_flatten,
    List.map_map, List.map_map]
  rfl

@[simp] theorem identifiers_leaf (label : Label) :
    (leaf .identifier label).identifiers = [label] := by
  rw [identifiers, leaves_leaf rfl]
  rfl

/-- The identifiers of outlines in a row, by those of each of them. -/
theorem flatten_identifiers
    {Item : Type}
    {outline : Item -> Outline Label}
    {found : Item -> List Label}
    {items : List Item}
    (same : ∀ item ∈ items, (outline item).identifiers = found item) :
    ((items.map outline).map identifiers).flatten = (items.map found).flatten := by
  rw [List.map_map]
  exact congrArg List.flatten (List.map_congr_left same)

end Outline

theorem Expression.identifiers_outline (expression : Expression Mark) :
    expression.outline.identifiers = expression.identifiers := by
  induction expression with
  | identifier mark => rw [outline, Outline.identifiers_leaf, identifiers]
  | literal mark base =>
      rw [outline, Outline.identifiers, Outline.leaves_leaf rfl, identifiers]
      rfl
  | unary mark operator operand inside =>
      rw [outline, Outline.identifiers_node rfl, identifiers, ← inside]
      simp
  | binary mark operator left right leftInside rightInside =>
      rw [outline, Outline.identifiers_node rfl, identifiers, ← leftInside, ← rightInside]
      simp
  | call mark callee arguments calleeInside argumentsInside =>
      rw [outline, Outline.identifiers_node rfl, identifiers, List.map_cons,
        List.flatten_cons, calleeInside, Outline.flatten_identifiers argumentsInside]

theorem Whole.identifiers_outline (whole : Whole Mark) :
    whole.outline.identifiers = whole.inner.identifiers := by
  rw [outline, Outline.identifiers_node rfl, ← whole.inner.identifiers_outline]
  simp

theorem Statement.identifiers_outline (statement : Statement Mark) :
    statement.outline.identifiers = statement.identifiers := by
  induction statement with
  | binding mark isConstant name value =>
      rw [outline, Outline.identifiers_node (by cases isConstant <;> rfl)]
      simp [identifiers, Whole.identifiers_outline]
  | assign mark target value =>
      rw [outline, Outline.identifiers_node rfl]
      simp [identifiers, Whole.identifiers_outline]
  | evaluate mark expression =>
      rw [outline, Outline.identifiers_node rfl]
      simp [identifiers, Whole.identifiers_outline]
  | return_ mark value =>
      rw [outline, Outline.identifiers_node rfl]
      cases value <;> simp [identifiers, Whole.identifiers_outline]
  | block mark statements inside =>
      rw [outline, Outline.identifiers_node rfl, identifiers,
        Outline.flatten_identifiers inside]
  | function mark name parameters bodyMark body inside =>
      have block : (Outline.node bodyMark .block (body.map outline)).identifiers =
          (body.map identifiers).flatten := by
        rw [Outline.identifiers_node rfl, Outline.flatten_identifiers inside]
      have names : ((parameters.map (Outline.leaf .identifier)).map Outline.identifiers).flatten =
          parameters := by
        rw [Outline.flatten_identifiers fun parameter _ => Outline.identifiers_leaf parameter,
          ← List.flatMap_def, List.flatMap_singleton']
      rw [outline, Outline.identifiers_node rfl, identifiers, List.map_append, List.map_cons,
        Outline.identifiers_leaf, List.flatten_append, List.flatten_cons, names,
        List.map_singleton, List.flatten_singleton, block]
      rfl

/-- The identifiers of a program, in the order of the text. -/
theorem Program.identifiers_outline (program : Program Mark) :
    program.outline.identifiers = (program.statements.map Statement.identifiers).flatten := by
  rw [outline, Outline.identifiers_node rfl,
    Outline.flatten_identifiers fun statement _ => statement.identifiers_outline]

/-! ## Identifiers in a row -/

namespace Source

variable
  {source : Source}
  {stream : Stream}
  {tree : Tree}
  {program : Program Mark}

/-- The identifiers of the program of a source stand in the text one after the other. -/
theorem pairwise_identifiers
    (streamMade : source.stream = .ok stream)
    (made : stream.tree = .ok tree)
    (derived : stream.Derives (program.map Mark.token)) :
    program.outline.identifiers.Pairwise fun first second =>
      (tree.placeOf first).Before (tree.placeOf second) := by
  have ends := endsOnce_of_stream streamMade
  obtain ⟨tokens, scanned, rfl⟩ := exists_scan streamMade
  obtain ⟨_, _, _, _, rfl⟩ := (Stream.tree_eq_ok ends).mp made
  have leavesOrdered : program.outline.leaves.Pairwise fun first second =>
      first.2.token < second.2.token := by
    obtain ⟨stop, -, reads⟩ := derived.exists_reads
    have ordered := reads.pairwise
    rwa [Program.outline_map, Outline.leaves_map, List.pairwise_map] at ordered
  have tokensOrdered := (Token.areOrdered_of_scan scanned).pairwise.2
  rw [List.pairwise_iff_getElem] at tokensOrdered
  rw [Outline.identifiers, List.pairwise_map]
  refine (leavesOrdered.sublist List.filter_sublist).imp_of_mem ?_
  rintro ⟨tag, first⟩ ⟨otherTag, second⟩ firstMember secondMember before
  rw [List.mem_filter, decide_eq_true_eq] at firstMember secondMember
  obtain ⟨firstLeaf, rfl⟩ := firstMember
  obtain ⟨secondLeaf, rfl⟩ := secondMember
  obtain ⟨firstToken, firstAt, isIdentifier⟩ := derived.exists_identifier firstLeaf
  obtain ⟨secondToken, secondAt, -⟩ := derived.exists_identifier secondLeaf
  simp only [Tree.placeOf, firstAt, secondAt, Option.map_some, Option.getD_some]
  apply source.place_before
  rw [List.getElem?_toArray, List.getElem?_eq_some_iff] at firstAt secondAt
  obtain ⟨firstInside, rfl⟩ := firstAt
  obtain ⟨secondInside, rfl⟩ := secondAt
  exact tokensOrdered _ _ firstInside secondInside before isIdentifier

end Source

/-- What is reported of identifiers in a row is reported in a row. -/
theorem Resolution.IsLexical.pairwise_diagnostics
    {tree : Tree}
    {program : Program Mark}
    {resolution : Resolution}
    {names : NameTable}
    (isLexical : resolution.IsLexical tree program names)
    (ordered : program.outline.identifiers.Pairwise fun first second =>
      (tree.placeOf first).Before (tree.placeOf second)) :
    resolution.diagnostics.toList.Pairwise fun first second =>
      first.location.Before second.location := by
  rw [program.identifiers_outline, ← program.map_mark_findings tree.lexeme,
    List.pairwise_map] at ordered
  rw [isLexical.diagnostics, List.pairwise_filterMap]
  refine ordered.imp fun {first second} before diagnostic found other otherFound => ?_
  rw [(Finding.of_diagnostic? found).1, (Finding.of_diagnostic? otherFound).1]
  exact before

end Frontend
