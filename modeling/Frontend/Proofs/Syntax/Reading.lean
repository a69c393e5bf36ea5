import Frontend.Proofs.Syntax.Family
import Frontend.Proofs.Syntax.Spelling

/-!
# Reading outlines

The outline of a tree that represents a program can be read, and every node of it is one
that a program can have. If the value of a return has the number that stands for an
absent one, then it is not read. The outline is still that of a program.
-/

namespace Frontend

/-! ## Returns -/

theorem Expression.isOperand_of_mem_parts {Label : Type} (expression : Expression Label) :
    ∀ part ∈ expression.outline.parts, part.tag.isOperand = true := by
  induction expression with
  | identifier | literal =>
      rw [outline, Outline.leaf, Outline.forall_parts_node]
      exact ⟨rfl, by simp⟩
  | unary label operator operand operands =>
      rw [outline, Outline.forall_parts_node]
      exact ⟨rfl, by simpa using operands⟩
  | binary label operator left right leftOperands rightOperands =>
      rw [outline, Outline.forall_parts_node]
      exact ⟨rfl, by simpa using ⟨leftOperands, rightOperands⟩⟩
  | call label callee arguments calleeOperands argumentsOperands =>
      rw [outline, Outline.forall_parts_node]
      exact ⟨rfl, by simpa using ⟨calleeOperands, argumentsOperands⟩⟩

/-- The word of a return that has a value is the number of the value. -/
def Outline.ReturnsWord (tree : Tree) (outline : Outline Mark) : Prop :=
  outline.tag = .return -> ∃ value : Option (Whole Mark),
    outline.children = value.toList.map Whole.outline ∧
      tree.nodes[outline.label.node]? =
        some ⟨.return, outline.label.token, Node.valueWord value, 0⟩

section Returns

variable {tree : Tree}

theorem Outline.returnsWord_node
    {mark : Mark}
    {tag : Tag}
    (different : tag ≠ .return)
    {children : List (Outline Mark)}
    (below : ∀ child ∈ children, ∀ part ∈ child.parts, part.ReturnsWord tree) :
    ∀ part ∈ (node mark tag children).parts, part.ReturnsWord tree := by
  rw [forall_parts_node]
  exact ⟨fun same => absurd same different, below⟩

theorem Whole.returnsWord (whole : Whole Mark) :
    ∀ part ∈ whole.outline.parts, part.ReturnsWord tree := by
  rw [outline]
  refine Outline.returnsWord_node (by decide) ?_
  rw [List.forall_mem_singleton]
  intro part isPart isReturn
  have isOperand := whole.inner.isOperand_of_mem_parts part isPart
  rw [isReturn] at isOperand
  cases isOperand

theorem Statement.Holds.returnsWord
    {statement : Statement Mark}
    (held : statement.Holds tree.nodes tree.extra) :
    ∀ part ∈ statement.outline.parts, part.ReturnsWord tree := by
  have leaf (mark : Mark) : ∀ part ∈ (Outline.leaf .identifier mark).parts,
      part.ReturnsWord tree := Outline.returnsWord_node (by decide) (by simp)
  induction held with
  | @binding mark name isConstant value =>
      rw [outline]
      refine Outline.returnsWord_node (by cases isConstant <;> decide) ?_
      simpa using ⟨leaf name, value.returnsWord⟩
  | @assign mark target value =>
      rw [outline]
      exact Outline.returnsWord_node (by decide)
        (by simpa using ⟨target.returnsWord, value.returnsWord⟩)
  | @evaluate mark expression =>
      rw [outline]
      exact Outline.returnsWord_node (by decide) (by simpa using expression.returnsWord)
  | @«return» mark value present =>
      rw [outline, Outline.forall_parts_node]
      exact ⟨fun _ => ⟨value, rfl, present⟩, by simpa using fun whole _ => whole.returnsWord⟩
  | block _ _ _ statementsReturn =>
      rw [outline]
      exact Outline.returnsWord_node (by decide) (by simpa using statementsReturn)
  | @function mark name bodyMark parameters body _ _ _ _ _ _ _ _ _ _ _ bodyReturns =>
      have block :
          ∀ part ∈ (Outline.node bodyMark .block (body.map outline)).parts,
            part.ReturnsWord tree :=
        Outline.returnsWord_node (by decide) (by simpa using bodyReturns)
      rw [outline]
      refine Outline.returnsWord_node (by decide) ?_
      simp only [List.cons_append, List.forall_mem_cons, List.forall_mem_append,
        List.forall_mem_map]
      exact ⟨leaf name, fun parameter _ => leaf parameter, block, by simp⟩

end Returns

/-! ## Nodes -/

namespace Tree

variable {tree : Tree} {id : NodeId} {node : Node} {program : Program Mark} {depth : Nat}

/-- Wrappers and operators always name their children. -/
theorem length_children
    (nodeRead : tree.node id = .ok node)
    {children : List NodeId}
    (childrenRead : tree.children id = .ok children) :
    ∀ count ∈ node.tag.arity?, children.length = count := by
  rw [Tree.children, nodeRead] at childrenRead
  intro count isCount
  cases tag : node.tag <;> rw [tag] at isCount <;> cases isCount <;>
    simp only [bind, Except.bind, tag] at childrenRead <;> cases childrenRead <;> rfl

theorem leafText?_leaf
    (nodeRead : tree.node id = .ok node)
    (outer : node.tag.isLeaf = true)
    {token : Token}
    (present : tree.tokens[node.token]? = some token) :
    tree.leafText? id = .ok (some token.value) := by
  simp only [leafText?, nodeRead, bind, Except.bind, outer, if_true, text, Tree.token, present]
  rfl

theorem leafText?_inner
    (nodeRead : tree.node id = .ok node)
    (inner : node.tag.isLeaf = false) :
    tree.leafText? id = .ok none := by
  simp only [leafText?, nodeRead, bind, Except.bind, inner]
  rfl

/-- A node of a program has its children, but for a return whose value cannot be told
from an absent one. -/
theorem Represents.exists_children
    (represents : tree.Represents program)
    {part : Outline Mark}
    (isPart : part ∈ program.outline.parts) :
    ∃ kept : List (Outline Mark),
      tree.children part.label.node = .ok (kept.map (·.label.node)) ∧
        (kept = part.children ∨ (part.tag = .return ∧ kept = [])) := by
  by_cases isReturn : part.tag = .return
  · have returns : ∀ part ∈ program.outline.parts, part.ReturnsWord tree := by
      rw [Program.outline]
      refine Outline.returnsWord_node (by decide) ?_
      simpa using fun statement member =>
        (represents.held.statementsHeld statement member).returnsWord
    obtain ⟨value, sameChildren, present⟩ := returns part isPart isReturn
    simp only [Tree.children, returnValue, node_eq_ok present, bind, Except.bind, sameChildren]
    by_cases absent : Node.valueWord value = Node.absent
    · rw [if_pos absent]
      exact ⟨[], rfl, .inr ⟨isReturn, rfl⟩⟩
    · rw [if_neg absent]
      cases value with
      | none => exact absurd rfl absent
      | some whole => exact ⟨[whole.outline], rfl, .inl rfl⟩
  · have held := represents.isHeld part isPart
    exact ⟨part.children, held.children fun same => absurd same isReturn, .inl rfl⟩

/-! ## Outlines -/

/-- On paths of this length the outline of a node can be read, and all nodes of it are
such that a program can have them. -/
def HasOutline (tree : Tree) (depth : Nat) (id : NodeId) (tag : Tag) : Prop :=
  ∃ outline, tree.outlineWithin depth id = .ok outline ∧ outline.tag = tag ∧
    ∀ part ∈ outline.parts, part.IsFormed

/-- Every leaf has a main token with a text that goes with its tag. -/
def SpellsLeaves (tree : Tree) (program : Program Mark) : Prop :=
  ∀ leaf ∈ program.outline.leaves, ∃ token,
    tree.tokens[leaf.2.token]? = some token ∧ leaf.1.Spells token.value

/-- The outlines of several nodes can be read if each of them can. -/
theorem exists_outlines
    {parts : List (Outline Mark)}
    (each : ∀ part ∈ parts, tree.HasOutline depth part.label.node part.tag) :
    ∃ outlines,
      (parts.map (·.label.node)).mapM (tree.outlineWithin depth) = .ok outlines ∧
        outlines.map Outline.tag = parts.map Outline.tag ∧
        ∀ outline ∈ outlines, ∀ part ∈ outline.parts, part.IsFormed := by
  induction parts with
  | nil => exact ⟨[], rfl, rfl, by simp⟩
  | cons part parts ih =>
      rw [List.forall_mem_cons] at each
      obtain ⟨outline, read, sameTag, formed⟩ := each.1
      obtain ⟨outlines, othersRead, sameTags, othersFormed⟩ := ih each.2
      refine ⟨outline :: outlines, ?_, ?_, List.forall_mem_cons.mpr ⟨formed, othersFormed⟩⟩
      · rw [List.map_cons, List.mapM_cons, read, othersRead]
        rfl
      · rw [List.map_cons, List.map_cons, sameTag, sameTags]

/-- The outline of a node can be read if those of its children can. -/
theorem Represents.hasOutline_succ
    (represents : tree.Represents program)
    (spelled : tree.SpellsLeaves program)
    {part : Outline Mark}
    (isPart : part ∈ program.outline.parts)
    (below : ∀ child ∈ part.children, tree.HasOutline depth child.label.node child.tag) :
    tree.HasOutline (depth + 1) part.label.node part.tag := by
  obtain ⟨left, right, present⟩ := (represents.isHeld part isPart).present
  have nodeRead := node_eq_ok present
  obtain ⟨kept, childrenRead, isKept⟩ := represents.exists_children isPart
  -- A return keeps no child if its value has the number of an absent one.
  have keptBelow : ∀ child ∈ kept, tree.HasOutline depth child.label.node child.tag := by
    rcases isKept with rfl | ⟨-, rfl⟩
    · exact below
    · simp
  obtain ⟨outlines, outlinesRead, sameTags, childrenFormed⟩ := exists_outlines keptBelow
  have fits : part.tag.Admits (outlines.map Outline.tag) := by
    rw [sameTags]
    rcases isKept with rfl | ⟨isReturn, rfl⟩
    · exact program.fits_outline part isPart
    · rw [isReturn]
      exact .inl rfl
  have arity : ∀ count ∈ part.tag.arity?, outlines.length = count := by
    have sameLength : outlines.length = (kept.map (·.label.node)).length := by
      simpa using congrArg List.length sameTags
    rw [sameLength]
    exact length_children nodeRead childrenRead
  cases outer : part.tag.isLeaf with
  | true =>
      obtain ⟨token, tokenPresent, spells⟩ := spelled (part.tag, part.label)
        (List.mem_map.mpr ⟨part, List.mem_filter.mpr ⟨isPart, outer⟩, rfl⟩)
      refine ⟨_, outlineWithin_eq_ok.mpr ⟨_, _, _, _, nodeRead,
        leafText?_leaf nodeRead outer tokenPresent, childrenRead, outlinesRead, rfl⟩, rfl, ?_⟩
      rw [Outline.forall_parts_node]
      exact ⟨⟨fits, arity, fun _ => ⟨_, rfl, spells⟩,
        fun inner => absurd (outer.symm.trans inner) (by decide)⟩, childrenFormed⟩
  | false =>
      refine ⟨_, outlineWithin_eq_ok.mpr ⟨_, _, _, _, nodeRead,
        leafText?_inner nodeRead outer, childrenRead, outlinesRead, rfl⟩, rfl, ?_⟩
      rw [Outline.forall_parts_node]
      exact ⟨⟨fits, arity, fun isLeaf => absurd (outer.symm.trans isLeaf) (by decide),
        fun _ => rfl⟩, childrenFormed⟩

/-- The statements are numbered from below, so that the paths into them are short. -/
theorem Represents.hasOutline_of_lt
    (represents : tree.Represents program)
    (spelled : tree.SpellsLeaves program)
    {statement : Statement Mark}
    (isStatement : statement ∈ program.statements)
    {part : Outline Mark}
    (isPart : part ∈ statement.outline.parts)
    (deep : part.label.node < depth) :
    tree.HasOutline depth part.label.node part.tag := by
  obtain ⟨_, _, -, -, numbered⟩ :=
    represents.numbered.exists_of_mem_flatten (List.mem_map_of_mem isStatement)
  rw [← statement.labels_outline] at numbered
  induction depth generalizing part with
  | zero => cases deep
  | succ depth ih =>
      have inProgram : part ∈ program.outline.parts := by
        rw [Program.outline, Outline.parts_node]
        exact List.mem_cons_of_mem _ (List.mem_flatten.mpr
          ⟨_, List.mem_map_of_mem (List.mem_map_of_mem isStatement), isPart⟩)
      refine represents.hasOutline_succ spelled inProgram fun child isChild => ?_
      have before := Outline.child_lt numbered part isPart child isChild
      exact ih (Outline.mem_parts_of_mem_children isPart isChild)
        (Nat.lt_of_lt_of_le before (Nat.le_of_lt_succ deep))

/-- The outline of a tree that represents a program can be read, and it is one that a
program can have. -/
theorem Represents.exists_outline
    (represents : tree.Represents program)
    (spelled : tree.SpellsLeaves program) :
    ∃ outline, tree.outline = .ok outline ∧ outline.tag = .root ∧
      ∀ part ∈ outline.parts, part.IsFormed := by
  have isPart := program.outline.self_mem_parts
  have below : ∀ child ∈ program.outline.children,
      tree.HasOutline tree.nodes.size child.label.node child.tag := by
    intro child isChild
    obtain ⟨statement, isStatement, rfl⟩ := List.mem_map.mp isChild
    have held := (represents.held.statementsHeld statement isStatement).isHeld _
      statement.outline.self_mem_parts
    obtain ⟨_, _, present⟩ := held.present
    exact represents.hasOutline_of_lt spelled isStatement statement.outline.self_mem_parts
      (Array.getElem?_eq_some_iff.mp present).1
  have read := represents.hasOutline_succ spelled isPart below
  rw [Program.outline, Outline.label_node, represents.held.root] at read
  exact read

end Tree
end Frontend
