import Frontend.Proofs.Syntax.Numbering
import Mathlib.Data.List.Perm.Basic

/-!
# Outlines

The outline of a phrase is the tree of its nodes, of which only labels and tags are
kept. What a flat tree says of a node, and what a walk does on its way through, is said
of outlines once and then holds for phrases of every kind.
-/

namespace Frontend

namespace Tag

/-- The phrase has no parts, and its text is that of its main token. -/
def isLeaf : Tag -> Bool
  | .identifier | .literal _ => true
  | _ => false

/-- The phrase stands inside of whole expressions. -/
def isOperand : Tag -> Bool
  | .identifier | .literal _ | .unary _ | .binary _ | .call => true
  | _ => false

/-- The phrase is a statement. -/
def isStatement : Tag -> Bool
  | .constant | .mutable | .assign | .evaluate | .return | .block | .function => true
  | _ => false

/-- The tags of the children of a node with this tag. -/
def Admits (children : List Tag) : Tag -> Prop
  | .root | .block => ∀ child ∈ children, child.isStatement
  | .function => ∃ parameters,
      children = .identifier :: List.replicate parameters .identifier ++ [.block]
  | .constant | .mutable => children = [.identifier, .expression]
  | .assign => children = [.expression, .expression]
  | .evaluate => children = [.expression]
  | .return => children = [] ∨ children = [.expression]
  | .expression | .unary _ | .binary _ | .call => ∀ child ∈ children, child.isOperand
  | .identifier | .literal _ => children = []

end Tag

/-- The nodes of a phrase, by their labels and tags. -/
inductive Outline (Label : Type)
  | node (label : Label) (tag : Tag) (children : List (Outline Label))
  deriving Repr

namespace Outline

variable {Label Other : Type}

/-- Induction over outlines, with all children at once. -/
@[elab_as_elim, induction_eliminator]
theorem inductionOn
    {motive : Outline Label -> Prop}
    (node : ∀ label tag children,
      (∀ child ∈ children, motive child) -> motive (.node label tag children))
    (outline : Outline Label) :
    motive outline :=
  match outline with
  | .node label tag children =>
      node label tag children fun child _ => inductionOn node child

/-- The label of the outermost node. -/
def label : Outline Label -> Label
  | .node label _ _ => label

/-- The tag of the outermost node. -/
def tag : Outline Label -> Tag
  | .node _ tag _ => tag

/-- The outlines directly below the outermost node. -/
def children : Outline Label -> List (Outline Label)
  | .node _ _ children => children

@[simp] theorem label_node (label : Label) (tag : Tag) (children : List (Outline Label)) :
    (node label tag children).label = label := rfl

@[simp] theorem tag_node (label : Label) (tag : Tag) (children : List (Outline Label)) :
    (node label tag children).tag = tag := rfl

@[simp] theorem children_node (label : Label) (tag : Tag) (children : List (Outline Label)) :
    (node label tag children).children = children := rfl

/-- A node without children. -/
def leaf (tag : Tag) (label : Label) : Outline Label :=
  .node label tag []

/-- Replace every label. -/
def map (change : Label -> Other) : Outline Label -> Outline Other
  | .node label tag children => .node (change label) tag (children.map (map change))

/-- The outline with all that are below it, each before its children. -/
def parts : Outline Label -> List (Outline Label)
  | .node label tag children => .node label tag children :: (children.map parts).flatten

/-- The labels of all nodes, each after those of its children. -/
def labels : Outline Label -> List Label
  | .node label _ children => (children.map labels).flatten ++ [label]

/-- The leaves in the order of the text. -/
def leaves (outline : Outline Label) : List (Tag × Label) :=
  (outline.parts.filter (·.tag.isLeaf)).map fun part => (part.tag, part.label)

theorem parts_node (label : Label) (tag : Tag) (children : List (Outline Label)) :
    (node label tag children).parts =
      .node label tag children :: (children.map parts).flatten := by
  rw [parts]

theorem self_mem_parts (outline : Outline Label) : outline ∈ outline.parts := by
  cases outline
  simp [parts_node]

/-- A property of all parts, by the outermost node and the parts of the children. -/
theorem forall_parts_node
    {property : Outline Label -> Prop}
    (label : Label)
    (tag : Tag)
    (children : List (Outline Label)) :
    (∀ part ∈ (node label tag children).parts, property part) ↔
      property (.node label tag children) ∧
        ∀ child ∈ children, ∀ part ∈ child.parts, property part := by
  simp only [parts_node, List.forall_mem_cons, List.mem_flatten, List.mem_map]
  refine and_congr_right fun _ => ⟨fun all child member part isPart => ?_, ?_⟩
  · exact all part ⟨_, ⟨child, member, rfl⟩, isPart⟩
  · rintro all part ⟨_, ⟨child, member, rfl⟩, isPart⟩
    exact all child member part isPart

/-- The leaves of an outline that is no leaf are those of its children. -/
theorem leaves_node_of_not_isLeaf
    {tag : Tag}
    (inner : tag.isLeaf = false)
    (label : Label)
    (children : List (Outline Label)) :
    (node label tag children).leaves = (children.map leaves).flatten := by
  simp only [leaves, parts_node, List.filter_cons, tag_node, inner, Bool.false_eq_true,
    if_false, List.filter_flatten, List.map_flatten, List.map_map]
  rfl

theorem leaves_leaf {tag : Tag} (outer : tag.isLeaf = true) (label : Label) :
    (leaf tag label).leaves = [(tag, label)] := by
  simp [leaves, leaf, parts_node, outer]

/-- Replacing labels replaces them in the parts. -/
theorem parts_map (change : Label -> Other) (outline : Outline Label) :
    (outline.map change).parts = outline.parts.map (map change) := by
  induction outline with
  | node label tag children mapped =>
      have below : (children.map (map change)).map parts =
          (children.map parts).map (List.map (map change)) := by
        rw [List.map_map, List.map_map]
        exact List.map_congr_left mapped
      rw [map, parts_node, parts_node, below, List.map_cons, List.map_flatten, map]

theorem tag_map (change : Label -> Other) (outline : Outline Label) :
    (outline.map change).tag = outline.tag := by
  cases outline
  rw [map]
  rfl

theorem label_map (change : Label -> Other) (outline : Outline Label) :
    (outline.map change).label = change outline.label := by
  cases outline
  rw [map]
  rfl

/-- Replacing labels replaces them in the leaves. -/
theorem leaves_map (change : Label -> Other) (outline : Outline Label) :
    (outline.map change).leaves = outline.leaves.map (Prod.map id change) := by
  simp only [leaves, parts_map, List.filter_map, List.map_map, Function.comp_def, tag_map,
    label_map]
  rfl

/-- The labels of the parts are the labels, in another order. -/
theorem map_label_parts_perm (outline : Outline Label) :
    (outline.parts.map label).Perm outline.labels := by
  induction outline with
  | node outer tag children permuted =>
      rw [parts_node, labels, List.map_cons, List.map_flatten, List.map_map]
      apply List.Perm.trans _ (List.perm_append_singleton _ _).symm
      apply List.Perm.cons
      rw [← List.flatMap_def, ← List.flatMap_def]
      exact List.Perm.flatMap_left children permuted

/-- All parts but the outermost one are children of parts. -/
theorem children_parts_perm (outline : Outline Label) :
    (outline :: (outline.parts.map children).flatten).Perm outline.parts := by
  induction outline with
  | node label tag inner permuted =>
      rw [parts_node, List.map_cons, List.flatten_cons, children_node, ← List.flatMap_def,
        ← List.flatMap_def, List.flatMap_assoc]
      apply List.Perm.cons
      have split := List.map_append_flatMap_perm inner id
        fun child => child.parts.flatMap children
      rw [List.map_id] at split
      refine split.trans (List.Perm.flatMap_left inner fun child member => ?_)
      rw [List.flatMap_def]
      exact permuted child member

/-- A child of a part is a part. -/
theorem mem_parts_of_mem_children
    {outline part child : Outline Label}
    (isPart : part ∈ outline.parts)
    (isChild : child ∈ part.children) :
    child ∈ outline.parts := by
  rw [← outline.children_parts_perm.mem_iff]
  exact List.mem_cons_of_mem _ (List.mem_flatten.mpr ⟨_, List.mem_map_of_mem isPart, isChild⟩)

end Outline

/-! ## Outlines of phrases -/

variable {Label Other : Type}

/-- The outline of an expression. -/
def Expression.outline : Expression Label -> Outline Label
  | .identifier label => .leaf .identifier label
  | .literal label base => .leaf (.literal base) label
  | .unary label operator operand => .node label (.unary operator) [operand.outline]
  | .binary label operator left right =>
      .node label (.binary operator) [left.outline, right.outline]
  | .call label callee arguments =>
      .node label .call (callee.outline :: arguments.map outline)

/-- The outline of a whole expression. -/
def Whole.outline (whole : Whole Label) : Outline Label :=
  .node whole.label .expression [whole.inner.outline]

/-- The outline of a statement. -/
def Statement.outline : Statement Label -> Outline Label
  | .binding label isConstant name value =>
      .node label (Tag.ofBinding isConstant) [.leaf .identifier name, value.outline]
  | .assign label target value => .node label .assign [target.outline, value.outline]
  | .evaluate label expression => .node label .evaluate [expression.outline]
  | .return label value => .node label .return (value.toList.map Whole.outline)
  | .block label statements => .node label .block (statements.map outline)
  | .function label name parameters bodyLabel body =>
      .node label .function
        (.leaf .identifier name :: parameters.map (.leaf .identifier) ++
          [.node bodyLabel .block (body.map outline)])

/-- The outline of a program. -/
def Program.outline (program : Program Label) : Outline Label :=
  .node program.label .root (program.statements.map Statement.outline)

/-! ### Labels -/

theorem Expression.outline_map (change : Label -> Other) (expression : Expression Label) :
    (expression.map change).outline = expression.outline.map change := by
  induction expression with
  | identifier | literal => simp [map, outline, Outline.leaf, Outline.map]
  | unary label operator operand operandMapped =>
      simp [map, outline, Outline.map, operandMapped]
  | binary label operator left right leftMapped rightMapped =>
      simp [map, outline, Outline.map, leftMapped, rightMapped]
  | call label callee arguments calleeMapped argumentsMapped =>
      simp only [map, outline, Outline.map, calleeMapped, List.map_cons, List.map_map]
      congr 2
      exact List.map_congr_left argumentsMapped

theorem Whole.outline_map (change : Label -> Other) (whole : Whole Label) :
    (whole.map change).outline = whole.outline.map change := by
  simp [map, outline, Outline.map, Expression.outline_map]

theorem Statement.outline_map (change : Label -> Other) (statement : Statement Label) :
    (statement.map change).outline = statement.outline.map change := by
  induction statement with
  | binding | assign | evaluate =>
      simp [map, outline, Outline.leaf, Outline.map, Whole.outline_map]
  | return_ label value => cases value <;> simp [map, outline, Outline.map, Whole.outline_map]
  | block label statements mapped =>
      simp only [map, outline, Outline.map, List.map_map]
      congr 1
      exact List.map_congr_left mapped
  | function label name parameters bodyLabel body mapped =>
      have same : (body.map (map change)).map outline =
          (body.map outline).map (Outline.map change) := by
        rw [List.map_map, List.map_map]
        exact List.map_congr_left mapped
      simp [map, outline, Outline.leaf, Outline.map, same, Function.comp_def]

theorem Program.outline_map (change : Label -> Other) (program : Program Label) :
    (program.map change).outline = program.outline.map change := by
  simp only [map, outline, Outline.map, List.map_map]
  congr 1
  exact List.map_congr_left fun statement _ => statement.outline_map change

theorem Expression.label_outline (expression : Expression Label) :
    expression.outline.label = expression.label := by
  cases expression <;> simp [outline, Outline.leaf, label]

theorem Statement.label_outline (statement : Statement Label) :
    statement.outline.label = statement.label := by
  cases statement <;> simp [outline, label]

theorem Expression.labels_outline (expression : Expression Label) :
    expression.outline.labels = expression.labels := by
  induction expression with
  | identifier | literal => simp [outline, Outline.leaf, Outline.labels, labels]
  | unary label operator operand same => simp [outline, Outline.labels, labels, same]
  | binary label operator left right leftSame rightSame =>
      simp [outline, Outline.labels, labels, leftSame, rightSame]
  | call label callee arguments calleeSame argumentsSame =>
      have same : (arguments.map outline).map Outline.labels = arguments.map labels := by
        rw [List.map_map]
        exact List.map_congr_left argumentsSame
      simp [outline, Outline.labels, labels, calleeSame, same]

theorem Whole.labels_outline (whole : Whole Label) :
    whole.outline.labels = whole.labels := by
  simp [outline, Outline.labels, labels, Expression.labels_outline]

theorem Statement.labels_outline (statement : Statement Label) :
    statement.outline.labels = statement.labels := by
  induction statement with
  | binding | assign | evaluate =>
      simp [outline, Outline.leaf, Outline.labels, labels, Whole.labels_outline]
  | return_ label value =>
      cases value <;> simp [outline, Outline.labels, labels, Whole.labels_outline]
  | block label statements same =>
      have statementsSame : (statements.map outline).map Outline.labels =
          statements.map labels := by
        rw [List.map_map]
        exact List.map_congr_left same
      simp [outline, Outline.labels, labels, statementsSame]
  | function label name parameters bodyLabel body same =>
      have bodySame : (body.map outline).map Outline.labels = body.map labels := by
        rw [List.map_map]
        exact List.map_congr_left same
      have parametersSame : (parameters.map fun label => [label]).flatten = parameters := by
        rw [← List.flatMap_def, List.flatMap_singleton']
      simp [outline, Outline.leaf, Outline.labels, labels, bodySame, Function.comp_def,
        parametersSame]

theorem Program.labels_outline (program : Program Label) :
    program.outline.labels =
      (program.statements.map (·.labels)).flatten ++ [program.label] := by
  rw [outline, Outline.labels, List.map_map]
  congr 3
  funext statement
  exact statement.labels_outline

/-- The label of a part is one of the program. -/
theorem Program.label_mem_labels
    {program : Program Label}
    {part : Outline Label}
    (isPart : part ∈ program.outline.parts) :
    part.label ∈ program.labels := by
  have member : part.label ∈ program.outline.labels :=
    program.outline.map_label_parts_perm.mem_iff.mp (List.mem_map_of_mem isPart)
  rw [program.labels_outline] at member
  exact (List.perm_append_singleton _ _).mem_iff.mp member

/-! ### Tags -/

theorem Expression.isOperand_outline (expression : Expression Label) :
    expression.outline.tag.isOperand := by
  cases expression <;> simp [outline, Outline.leaf, Tag.isOperand]

theorem Statement.isStatement_outline (statement : Statement Label) :
    statement.outline.tag.isStatement := by
  cases statement with
  | binding label isConstant => cases isConstant <;> simp [outline, Tag.ofBinding, Tag.isStatement]
  | _ => simp [outline, Tag.isStatement]

/-- The tags of the children are those that the tag of the node admits. -/
def Outline.Fits (outline : Outline Label) : Prop :=
  outline.tag.Admits (outline.children.map Outline.tag)

theorem Outline.fits_leaf {tag : Tag} (outer : tag.isLeaf = true) (label : Label) :
    ∀ part ∈ (leaf tag label).parts, part.Fits := by
  have fits : (leaf tag label).Fits := by
    cases tag <;> simp_all [Fits, leaf, Tag.isLeaf, Tag.Admits]
  simpa [leaf, parts_node] using fits

theorem Expression.fits_outline (expression : Expression Label) :
    ∀ part ∈ expression.outline.parts, part.Fits := by
  induction expression with
  | identifier | literal =>
      rw [outline]
      exact Outline.fits_leaf rfl _
  | unary label operator operand operandFits =>
      rw [outline, Outline.forall_parts_node]
      exact ⟨by simp [Outline.Fits, Tag.Admits, isOperand_outline], by simpa using operandFits⟩
  | binary label operator left right leftFits rightFits =>
      rw [outline, Outline.forall_parts_node]
      exact ⟨by simp [Outline.Fits, Tag.Admits, isOperand_outline],
        by simpa using ⟨leftFits, rightFits⟩⟩
  | call label callee arguments calleeFits argumentsFit =>
      rw [outline, Outline.forall_parts_node]
      exact ⟨by simp [Outline.Fits, Tag.Admits, isOperand_outline],
        by simpa using ⟨calleeFits, argumentsFit⟩⟩

theorem Whole.fits_outline (whole : Whole Label) :
    ∀ part ∈ whole.outline.parts, part.Fits := by
  rw [outline, Outline.forall_parts_node]
  exact ⟨by simp [Outline.Fits, Tag.Admits, Expression.isOperand_outline],
    by simpa using whole.inner.fits_outline⟩

theorem Statement.fits_outline (statement : Statement Label) :
    ∀ part ∈ statement.outline.parts, part.Fits := by
  induction statement with
  | binding label isConstant name value =>
      rw [outline, Outline.forall_parts_node]
      refine ⟨?_, by simpa using ⟨Outline.fits_leaf rfl name, value.fits_outline⟩⟩
      cases isConstant <;>
        simp [Outline.Fits, Tag.ofBinding, Tag.Admits, Whole.outline, Outline.leaf]
  | assign label target value =>
      rw [outline, Outline.forall_parts_node]
      exact ⟨by simp [Outline.Fits, Tag.Admits, Whole.outline],
        by simpa using ⟨target.fits_outline, value.fits_outline⟩⟩
  | evaluate label expression =>
      rw [outline, Outline.forall_parts_node]
      exact ⟨by simp [Outline.Fits, Tag.Admits, Whole.outline],
        by simpa using expression.fits_outline⟩
  | return_ label value =>
      rw [outline, Outline.forall_parts_node]
      cases value with
      | none => exact ⟨by simp [Outline.Fits, Tag.Admits], by simp⟩
      | some value =>
          exact ⟨by simp [Outline.Fits, Tag.Admits, Whole.outline],
            by simpa using value.fits_outline⟩
  | block label statements statementsFit =>
      rw [outline, Outline.forall_parts_node]
      exact ⟨by simp [Outline.Fits, Tag.Admits, isStatement_outline],
        by simpa using statementsFit⟩
  | function label name parameters bodyLabel body bodyFits =>
      rw [outline, Outline.forall_parts_node]
      refine ⟨⟨parameters.length, ?_⟩, ?_⟩
      · simp [Outline.leaf, Function.comp_def]
      · have blockFits : ∀ part ∈ (Outline.node bodyLabel .block (body.map outline)).parts,
            part.Fits := by
          rw [Outline.forall_parts_node]
          exact ⟨by simp [Outline.Fits, Tag.Admits, isStatement_outline],
            by simpa using bodyFits⟩
        simp only [List.cons_append, List.forall_mem_cons, List.forall_mem_append,
          List.forall_mem_map]
        exact ⟨Outline.fits_leaf rfl name, fun parameter _ => Outline.fits_leaf rfl parameter,
          blockFits, by simp⟩

/-- Every node of a program has children with the tags that its own tag admits. -/
theorem Program.fits_outline (program : Program Label) :
    ∀ part ∈ program.outline.parts, part.Fits := by
  rw [outline, Outline.forall_parts_node]
  exact ⟨by simp [Outline.Fits, Tag.Admits, Statement.isStatement_outline],
    by simpa using fun statement _ => statement.fits_outline⟩

/-! ### Numbers -/

/-- The nodes of the outline of a program are those of the tree, each of them once. -/
theorem Tree.Represents.nodes_perm
    {tree : Tree}
    {program : Program Mark}
    (represents : tree.Represents program) :
    (program.outline.parts.map (·.label.node)).Perm (List.range tree.nodes.size) := by
  obtain ⟨total, numbers⟩ := represents.numbered
  have numbered := program.outline.map_label_parts_perm.map Mark.node
  rw [program.labels_outline, List.map_map, List.map_append, numbers, List.map_singleton,
    represents.held.root] at numbered
  apply (numbered.trans (List.perm_append_singleton _ _)).trans
  rw [List.range_eq_range', ← total, root, Nat.zero_add, Nat.add_comm 1, List.range'_succ]

/-- Every node of the tree is in the outline of the program. -/
theorem Tree.Represents.exists_part
    {tree : Tree}
    {program : Program Mark}
    (represents : tree.Represents program)
    {id : NodeId}
    (inside : id < tree.nodes.size) :
    ∃ part ∈ program.outline.parts, part.label.node = id :=
  List.mem_map.mp (represents.nodes_perm.mem_iff.mpr (List.mem_range.mpr inside))

end Frontend
