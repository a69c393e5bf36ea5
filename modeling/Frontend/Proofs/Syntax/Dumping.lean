import Frontend.Proofs.Syntax.Walk
import Frontend.Proofs.Text.Nested
import Frontend.Tree.Dump

/-!
# Dumps and outlines

The outline of a tree has the tags of its nodes and the texts of its leaves. The dump of
the tree is a text of the outline, in which the wrappers of whole expressions are left
out.
-/

namespace Frontend

/-! ## Outlines of trees -/

namespace Tag

/-- The text of a leaf with this tag in a dump. -/
def leafText (tag : Tag) (text : String) : String :=
  if tag = .literal .string then Text.quoted text else text

/-- The phrase is dumped as a list with a name. -/
def isListed (tag : Tag) : Bool :=
  !tag.isLeaf && tag ≠ .expression

theorem isListed_iff {tag : Tag} :
    tag.isListed = true ↔ tag.isLeaf = false ∧ tag ≠ .expression := by
  simp [isListed]

end Tag

namespace Outline

/-- The text of an outline. A whole expression has the text of what it wraps. -/
def dump : Outline (Option String) -> String
  | .node label tag children =>
      if tag.isLeaf then
        tag.leafText (label.getD "")
      else if tag = .expression then
        String.join (children.map dump)
      else
        "(" ++ String.join (tag.name :: (children.map dump).map (" " ++ ·)) ++ ")"

theorem dump_leaf
    {tag : Tag}
    (outer : tag.isLeaf = true)
    (text : String)
    (children : List (Outline (Option String))) :
    (node (some text) tag children).dump = tag.leafText text := by
  rw [dump, if_pos outer, Option.getD_some]

theorem dump_expression (label : Option String) (inner : Outline (Option String)) :
    (node label .expression [inner]).dump = inner.dump := by
  rw [dump]
  simp [Tag.isLeaf, String.join]

theorem dump_listed
    {tag : Tag}
    (listed : tag.isListed = true)
    (label : Option String)
    (children : List (Outline (Option String))) :
    (node label tag children).dump =
      "(" ++ String.join (tag.name :: (children.map dump).map (" " ++ ·)) ++ ")" := by
  obtain ⟨inner, different⟩ := Tag.isListed_iff.mp listed
  rw [dump, inner, if_neg Bool.false_ne_true, if_neg different]

end Outline

namespace Tree

variable {tree : Tree} {id : NodeId} {depth : Nat}

/-- The text of a node that is a leaf. -/
def leafText? (tree : Tree) (id : NodeId) : Except Fault (Option String) := do
  let node <- tree.node id
  if node.tag.isLeaf then
    return some (<- tree.text id)
  else
    return none

/-- The outline of the nodes under `id` with the texts of the leaves, on paths of at
most `depth` nodes. -/
def outlineWithin (tree : Tree) : Nat -> NodeId -> Except Fault (Outline (Option String))
  | 0, _ => .error .endless
  | depth + 1, id => do
      let node <- tree.node id
      let label <- tree.leafText? id
      let children <- tree.children id
      let parts <- children.mapM (outlineWithin tree depth)
      return .node label node.tag parts

/-- The outline of the whole tree. -/
def outline (tree : Tree) : Except Fault (Outline (Option String)) :=
  tree.outlineWithin (tree.nodes.size + 1) root

/-- What is read on the way to an outline. -/
theorem outlineWithin_eq_ok
    {outline : Outline (Option String)} :
    tree.outlineWithin (depth + 1) id = .ok outline ↔
      ∃ node label children parts,
        tree.node id = .ok node ∧
          tree.leafText? id = .ok label ∧
          tree.children id = .ok children ∧
          children.mapM (tree.outlineWithin depth) = .ok parts ∧
          outline = .node label node.tag parts := by
  constructor
  · intro read
    obtain ⟨node, nodeRead, read⟩ := exists_of_bind_eq_ok read
    obtain ⟨label, labelRead, read⟩ := exists_of_bind_eq_ok read
    obtain ⟨children, childrenRead, read⟩ := exists_of_bind_eq_ok read
    obtain ⟨parts, partsRead, read⟩ := exists_of_bind_eq_ok read
    cases read
    exact ⟨node, label, children, parts, nodeRead, labelRead, childrenRead, partsRead, rfl⟩
  · rintro ⟨node, label, children, parts, nodeRead, labelRead, childrenRead, partsRead, rfl⟩
    rw [outlineWithin, nodeRead]
    simp only [bind, Except.bind, labelRead, childrenRead, partsRead]
    rfl

theorem exists_text_of_leafText?
    {node : Node}
    (nodeRead : tree.node id = .ok node)
    (outer : node.tag.isLeaf = true)
    {label : Option String}
    (labelRead : tree.leafText? id = .ok label) :
    ∃ text, tree.text id = .ok text ∧ label = some text := by
  rw [leafText?, nodeRead] at labelRead
  simp only [bind, Except.bind, outer, if_true] at labelRead
  obtain ⟨text, textRead, same⟩ := exists_of_bind_eq_ok labelRead
  cases same
  exact ⟨text, textRead, rfl⟩

theorem dumpWithin_leaf
    {node : Node}
    (nodeRead : tree.node id = .ok node)
    (outer : node.tag.isLeaf = true)
    {text : String}
    (textRead : tree.text id = .ok text) :
    tree.dumpWithin (depth + 1) id = .ok (node.tag.leafText text) := by
  rw [dumpWithin, nodeRead]
  simp only [bind, Except.bind]
  cases tag : node.tag with
  | identifier => exact textRead
  | literal base =>
      cases base with
      | string =>
          simp only [textRead]
          rfl
      | _ => exact textRead
  | _ =>
      rw [tag] at outer
      cases outer

theorem dumpWithin_expression
    {node : Node}
    (nodeRead : tree.node id = .ok node)
    (isExpression : node.tag = .expression) :
    tree.dumpWithin (depth + 1) id = tree.dumpWithin depth node.left := by
  rw [dumpWithin, nodeRead]
  simp only [bind, Except.bind, isExpression]

theorem dumpWithin_listed
    {node : Node}
    (nodeRead : tree.node id = .ok node)
    (listed : node.tag.isListed = true)
    {children : List NodeId}
    (childrenRead : tree.children id = .ok children)
    {parts : List String}
    (dumped : children.mapM (tree.dumpWithin depth) = .ok parts) :
    tree.dumpWithin (depth + 1) id =
      .ok ("(" ++ String.join (node.tag.name :: parts.map (" " ++ ·)) ++ ")") := by
  rw [dumpWithin, nodeRead]
  simp only [bind, Except.bind]
  cases tag : node.tag with
  | identifier | literal | expression =>
      rw [tag] at listed
      cases listed
  | _ =>
      simp only [childrenRead, dumped]
      rfl

theorem children_leaf
    {node : Node}
    (nodeRead : tree.node id = .ok node)
    (outer : node.tag.isLeaf = true) :
    tree.children id = .ok [] := by
  rw [children, nodeRead]
  simp only [bind, Except.bind]
  cases tag : node.tag with
  | identifier | literal => rfl
  | _ =>
      rw [tag] at outer
      cases outer

theorem children_expression
    {node : Node}
    (nodeRead : tree.node id = .ok node)
    (isExpression : node.tag = .expression) :
    tree.children id = .ok [node.left] := by
  rw [children, nodeRead]
  simp only [bind, Except.bind, isExpression]
  rfl

/-- The dump of a tree is that of its outline. -/
theorem dumpWithin_eq
    {outline : Outline (Option String)}
    (read : tree.outlineWithin depth id = .ok outline) :
    tree.dumpWithin depth id = .ok outline.dump := by
  induction depth generalizing id outline with
  | zero => cases read
  | succ depth ih =>
      obtain ⟨node, label, children, parts, nodeRead, labelRead, childrenRead, partsRead, rfl⟩ :=
        outlineWithin_eq_ok.mp read
      rw [mapM_eq_ok_iff] at partsRead
      by_cases outer : node.tag.isLeaf = true
      · obtain ⟨text, textRead, rfl⟩ := exists_text_of_leafText? nodeRead outer labelRead
        cases (children_leaf nodeRead outer).symm.trans childrenRead
        cases partsRead
        rw [dumpWithin_leaf nodeRead outer textRead, Outline.dump_leaf outer]
      by_cases isExpression : node.tag = .expression
      · cases (children_expression nodeRead isExpression).symm.trans childrenRead
        obtain ⟨part, _, partRead, none, rfl⟩ := List.forall₂_cons_left_iff.mp partsRead
        cases none
        rw [dumpWithin_expression nodeRead isExpression, ih partRead,
          isExpression, Outline.dump_expression]
      · have listed : node.tag.isListed = true :=
          Tag.isListed_iff.mpr ⟨Bool.eq_false_iff.mpr outer, isExpression⟩
        have dumped : children.mapM (tree.dumpWithin depth) = .ok (parts.map Outline.dump) := by
          rw [mapM_eq_ok_iff, List.forall₂_map_right_iff]
          exact partsRead.imp fun _ _ => ih
        rw [dumpWithin_listed nodeRead listed childrenRead dumped, Outline.dump_listed listed]

theorem dump_eq
    {outline : Outline (Option String)}
    (read : tree.outline = .ok outline) :
    tree.dump = .ok outline.dump :=
  dumpWithin_eq read

end Tree
end Frontend
