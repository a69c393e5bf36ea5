import Frontend.Proofs.Syntax.Walk
import Mathlib.Data.List.Nodup
import Mathlib.Data.List.Pairwise
import Mathlib.Logic.Relation

/-!
# Parents and children

A flat tree that represents a program is rooted: every node but the root is the child of
just one node, and of that node only once, and a node comes after its children. What may
stand below what is then decided from node to node, since each tag admits only some tags
below it.
-/

namespace Frontend

namespace Tree

variable (tree : Tree)

/-- The tag of a node, if there is such a node. -/
def tag? (id : NodeId) : Option Tag :=
  tree.nodes[id]?.map Node.tag

/-- The second node is a child of the first one. -/
def IsChild (parent child : NodeId) : Prop :=
  ∃ children, tree.children parent = .ok children ∧ child ∈ children

/-- The second node lies somewhere below the first one. -/
def IsBelow : NodeId -> NodeId -> Prop :=
  Relation.TransGen tree.IsChild

/-- The children of the nodes can be read, and make a tree of them. The tags of children
are those that the tag of the parent admits. -/
structure Rooted : Prop where
  nonempty : root < tree.nodes.size
  isRoot : ∀ id, tree.tag? id = some .root ↔ id = root
  children : ∀ id, id < tree.nodes.size ->
    ∃ children, tree.children id = .ok children ∧ children.Nodup
  inside : ∀ parent child, tree.IsChild parent child ->
    child < tree.nodes.size ∧ child ≠ root
  exists_parent : ∀ id, id < tree.nodes.size -> id ≠ root -> ∃ parent, tree.IsChild parent id
  unique : ∀ parent other child, tree.IsChild parent child -> tree.IsChild other child ->
    parent = other
  descends : ∀ parent child, tree.IsChild parent child -> parent ≠ root -> child < parent
  admits : ∀ parent tag children,
    tree.tag? parent = some tag -> tree.children parent = .ok children ->
      tag.Admits (children.filterMap tree.tag?)

end Tree

/-! ## Trees that represent programs -/

theorem Tag.Admits.root_not_mem
    {tag : Tag}
    {children : List Tag}
    (admits : tag.Admits children) :
    .root ∉ children := by
  intro isChild
  cases tag with
  | root | block => exact absurd (admits _ isChild) (by decide)
  | expression | unary | binary | call => exact absurd (admits _ isChild) (by decide)
  | function =>
      obtain ⟨parameters, rfl⟩ := admits
      simp at isChild
  | constant | mutable | assign | evaluate | identifier | literal =>
      rw [admits] at isChild
      simp at isChild
  | «return» =>
      rcases admits with rfl | rfl
      · simp at isChild
      · simp at isChild

theorem Tag.isStatement_of_isOperand {tag : Tag} (isOperand : tag.isOperand = true) :
    tag.isStatement = false := by
  cases tag with
  | identifier | literal | unary | binary | call => rfl
  | _ => cases isOperand

/-- An operand stands below an expression or an operand, unless it is an identifier that
is declared. -/
theorem Tag.Admits.above_operand
    {upper lower : Tag}
    {children : List Tag}
    (admits : upper.Admits children)
    (isChild : lower ∈ children)
    (isOperand : lower.isOperand = true) :
    upper = .expression ∨ (upper.isOperand = true ∧ upper ≠ .identifier) ∨
      (lower = .identifier ∧ (upper = .function ∨ upper = .constant ∨ upper = .mutable)) := by
  cases upper with
  | expression => exact .inl rfl
  | unary | binary | call => exact .inr (.inl ⟨rfl, by simp⟩)
  | root | block =>
      have isStatement := admits lower isChild
      rw [isStatement_of_isOperand isOperand] at isStatement
      cases isStatement
  | function =>
      obtain ⟨parameters, rfl⟩ := admits
      rcases List.mem_append.mp isChild with name | body
      · rw [← List.replicate_succ] at name
        exact .inr (.inr ⟨List.eq_of_mem_replicate name, .inl rfl⟩)
      · rw [List.mem_singleton.mp body] at isOperand
        cases isOperand
  | constant | mutable =>
      rw [admits] at isChild
      rcases List.mem_pair.mp isChild with rfl | rfl
      · simp
      · cases isOperand
  | assign =>
      rw [admits] at isChild
      rw [(List.mem_pair.mp isChild).elim id id] at isOperand
      cases isOperand
  | evaluate =>
      rw [admits] at isChild
      rw [List.mem_singleton.mp isChild] at isOperand
      cases isOperand
  | identifier | literal =>
      rw [admits] at isChild
      cases isChild
  | «return» =>
      rcases admits with rfl | rfl
      · cases isChild
      · rw [List.mem_singleton.mp isChild] at isOperand
        cases isOperand

/-- Nodes that are numbered in order come after their children. -/
theorem Outline.child_lt
    {start stop : Nat}
    {outline : Outline Mark}
    (numbered : Numbered start stop outline.labels) :
    ∀ part ∈ outline.parts, ∀ child ∈ part.children, child.label.node < part.label.node := by
  induction outline generalizing start stop with
  | node mark tag children childrenBelow =>
      rw [labels] at numbered
      obtain ⟨childrenNumbered, -⟩ := numbered.of_concat
      rw [forall_parts_node]
      refine ⟨fun child member => ?_, fun child member => ?_⟩
      · apply (childrenNumbered.bounds (List.mem_flatten.mpr
          ⟨_, List.mem_map_of_mem member, _⟩)).2
        cases child
        simp [labels]
      · obtain ⟨_, _, -, -, childNumbered⟩ :=
          childrenNumbered.exists_of_mem_flatten (List.mem_map_of_mem member)
        exact childrenBelow child member childNumbered

namespace Tree.Represents

variable {tree : Tree} {program : Program Mark} (represents : tree.Represents program)

include represents

theorem tag?_eq
    {part : Outline Mark}
    (isPart : part ∈ program.outline.parts) :
    tree.tag? part.label.node = some part.tag := by
  obtain ⟨left, right, present⟩ := (represents.isHeld part isPart).present
  rw [tag?, present]
  rfl

/-- The children of all nodes are all nodes but the root, each of them once. -/
theorem children_perm :
    (root :: (program.outline.parts.map
      fun part => part.children.map (·.label.node)).flatten).Perm
        (List.range tree.nodes.size) := by
  have all := (program.outline.children_parts_perm.map (·.label.node)).trans
    represents.nodes_perm
  rw [List.map_cons, List.map_flatten, List.map_map] at all
  rw [← represents.held.root]
  exact all

/-- The root is the only node with its tag. -/
theorem tag?_eq_root_iff {id : NodeId} : tree.tag? id = some .root ↔ id = root := by
  constructor
  · intro tagged
    obtain ⟨found, present, isRoot⟩ := Option.map_eq_some_iff.mp tagged
    obtain ⟨part, isPart, -, rfl, sameTag, -⟩ := represents.exists_isHeld present
    rw [isRoot] at sameTag
    -- A part that is a child of another one does not have the tag of a root.
    rcases List.mem_cons.mp (program.outline.children_parts_perm.mem_iff.mpr isPart) with
      rfl | member
    · exact represents.held.root
    · obtain ⟨_, isList, isChild⟩ := List.mem_flatten.mp member
      obtain ⟨upper, upperIsPart, rfl⟩ := List.mem_map.mp isList
      have fits := (program.fits_outline upper upperIsPart).root_not_mem
      exact absurd (sameTag ▸ List.mem_map_of_mem isChild) fits
  · rintro rfl
    have tagged := represents.tag?_eq program.outline.self_mem_parts
    rwa [show program.outline.label.node = root from represents.held.root] at tagged

section Children

variable (small : tree.nodes.size ≤ Node.absent)

include small

theorem children_eq
    {part : Outline Mark}
    (isPart : part ∈ program.outline.parts) :
    tree.children part.label.node = .ok (part.children.map (·.label.node)) :=
  (represents.isHeld part isPart).children fun _ => small

theorem isChild_iff {parent child : NodeId} :
    tree.IsChild parent child ↔
      ∃ part ∈ program.outline.parts, part.label.node = parent ∧
        ∃ lower ∈ part.children, lower.label.node = child := by
  constructor
  · rintro ⟨children, read, member⟩
    obtain ⟨node, nodeRead, -⟩ := exists_of_bind_eq_ok read
    have inside := (Array.getElem?_eq_some_iff.mp (getElem?_of_node_eq_ok nodeRead)).1
    obtain ⟨part, isPart, rfl⟩ := represents.exists_part inside
    rw [represents.children_eq small isPart, Except.ok.injEq] at read
    subst read
    exact ⟨part, isPart, rfl, List.mem_map.mp member⟩
  · rintro ⟨part, isPart, rfl, lower, isChild, rfl⟩
    exact ⟨_, represents.children_eq small isPart, List.mem_map_of_mem isChild⟩

/-- Every child is in the list of the children of all nodes. -/
theorem mem_children {parent child : NodeId} (isChild : tree.IsChild parent child) :
    child ∈ (program.outline.parts.map
      fun part => part.children.map (·.label.node)).flatten := by
  obtain ⟨part, isPart, -, lower, isLower, rfl⟩ := (represents.isChild_iff small).mp isChild
  exact List.mem_flatten.mpr ⟨_, List.mem_map_of_mem isPart, List.mem_map_of_mem isLower⟩

/-- No node is a child of two others. -/
theorem parent_unique
    {parent other child : NodeId}
    (isChild : tree.IsChild parent child)
    (otherIsChild : tree.IsChild other child) :
    parent = other := by
  obtain ⟨part, isPart, rfl, lower, isLower, rfl⟩ := (represents.isChild_iff small).mp isChild
  obtain ⟨otherPart, otherIsPart, rfl, otherLower, otherIsLower, same⟩ :=
    (represents.isChild_iff small).mp otherIsChild
  have distinct := represents.children_perm.nodup_iff.mpr List.nodup_range
  have apart := (List.nodup_flatten.mp (List.nodup_cons.mp distinct).2).2
  rw [List.pairwise_map] at apart
  have symmetric : Std.Symm fun first second : Outline Mark =>
      (first.children.map (·.label.node)).Disjoint (second.children.map (·.label.node)) :=
    ⟨fun _ _ disjoint _ second first => disjoint first second⟩
  by_contra different
  have disjoint := apart.forall isPart otherIsPart fun samePart => different (samePart ▸ rfl)
  exact disjoint (List.mem_map_of_mem isLower) (same ▸ List.mem_map_of_mem otherIsLower)

/-- The statements are numbered from below, so that the nodes of each come after their
children. -/
theorem child_lt
    {parent child : NodeId}
    (isChild : tree.IsChild parent child)
    (notRoot : parent ≠ root) :
    child < parent := by
  obtain ⟨part, isPart, rfl, lower, isLower, rfl⟩ := (represents.isChild_iff small).mp isChild
  rw [Program.outline, Outline.parts_node] at isPart
  rcases List.mem_cons.mp isPart with rfl | member
  · exact absurd represents.held.root notRoot
  · obtain ⟨_, isList, isPart⟩ := List.mem_flatten.mp member
    obtain ⟨_, isOutline, rfl⟩ := List.mem_map.mp isList
    obtain ⟨statement, isStatement, rfl⟩ := List.mem_map.mp isOutline
    obtain ⟨_, _, -, -, numbered⟩ :=
      represents.numbered.exists_of_mem_flatten (List.mem_map_of_mem isStatement)
    rw [← statement.labels_outline] at numbered
    exact Outline.child_lt numbered part isPart lower isLower

/-- The tags of the children are those that the tag of the parent admits. -/
theorem admits
    {parent : NodeId}
    {tag : Tag}
    {children : List NodeId}
    (tagged : tree.tag? parent = some tag)
    (read : tree.children parent = .ok children) :
    tag.Admits (children.filterMap tree.tag?) := by
  obtain ⟨found, present, rfl⟩ := Option.map_eq_some_iff.mp tagged
  obtain ⟨part, isPart, -, rfl, sameTag, -⟩ := represents.exists_isHeld present
  rw [represents.children_eq small isPart, Except.ok.injEq] at read
  have tags : (part.children.map (·.label.node)).filterMap tree.tag? =
      part.children.map Outline.tag := by
    rw [List.filterMap_map, ← List.filterMap_eq_map]
    apply List.filterMap_congr
    intro lower isLower
    exact represents.tag?_eq (Outline.mem_parts_of_mem_children isPart isLower)
  rw [← read, tags, ← sameTag]
  exact program.fits_outline part isPart

/-- A tree that represents a program is rooted. -/
theorem rooted : tree.Rooted := by
  have permuted := represents.children_perm
  have distinct := permuted.nodup_iff.mpr List.nodup_range
  rw [List.nodup_cons, List.nodup_flatten] at distinct
  obtain ⟨notRoot, eachOnce, -⟩ := distinct
  constructor
  case nonempty =>
    rw [← List.mem_range, ← permuted.mem_iff]
    exact List.mem_cons_self
  case isRoot => exact fun _ => represents.tag?_eq_root_iff
  case children =>
    intro id inside
    obtain ⟨part, isPart, rfl⟩ := represents.exists_part inside
    exact ⟨_, represents.children_eq small isPart, eachOnce _ (List.mem_map_of_mem isPart)⟩
  case inside =>
    intro parent child isChild
    have listed := represents.mem_children small isChild
    refine ⟨?_, fun same => notRoot (same ▸ listed)⟩
    rw [← List.mem_range, ← permuted.mem_iff]
    exact List.mem_cons_of_mem _ listed
  case exists_parent =>
    intro id inside other
    rw [← List.mem_range, ← permuted.mem_iff] at inside
    rcases List.mem_cons.mp inside with same | member
    · exact absurd same other
    · obtain ⟨_, isList, member⟩ := List.mem_flatten.mp member
      obtain ⟨part, isPart, rfl⟩ := List.mem_map.mp isList
      exact ⟨part.label.node, _, represents.children_eq small isPart, member⟩
  case unique => exact fun _ _ _ => represents.parent_unique small
  case descends => exact fun _ _ => represents.child_lt small
  case admits => exact fun _ _ _ => represents.admits small

end Children

end Tree.Represents

/-! ## Expressions and identifiers -/

/-- The node is the name or a parameter of a function, or the name of a constant or a
variable. -/
def Tree.IsDeclared (tree : Tree) (id : NodeId) : Prop :=
  (∃ function parts,
    tree.tag? function = some .function ∧ tree.functionParts function = .ok parts ∧
      (id = parts.name ∨ id ∈ parts.parameters)) ∨
    ∃ (binding : NodeId) (node : Node),
      tree.nodes[binding]? = some node ∧ (node.tag = .constant ∨ node.tag = .mutable) ∧
        node.left = id

theorem Tree.children_of_isBinding
    {tree : Tree}
    {id : NodeId}
    {node : Node}
    (present : tree.nodes[id]? = some node)
    (isBinding : node.tag = .constant ∨ node.tag = .mutable) :
    tree.children id = .ok [node.left, node.right] := by
  rw [Tree.children, node_eq_ok present]
  simp only [bind, Except.bind]
  rcases isBinding with same | same
  · rw [same]
    rfl
  · rw [same]
    rfl

/-- What is declared is a child of a declaration. -/
theorem Tree.IsDeclared.exists_parent
    {tree : Tree}
    {id : NodeId}
    (declared : tree.IsDeclared id) :
    ∃ parent upper, tree.IsChild parent id ∧ tree.tag? parent = some upper ∧
      (upper = .function ∨ upper = .constant ∨ upper = .mutable) := by
  rcases declared with ⟨function, parts, tagged, partsRead, isPart⟩ |
    ⟨binding, node, present, isBinding, rfl⟩
  · obtain ⟨found, present, isFunction⟩ := Option.map_eq_some_iff.mp tagged
    refine ⟨function, .function, ⟨_, children_of_functionParts present isFunction partsRead, ?_⟩,
      tagged, .inl rfl⟩
    rw [List.mem_append, List.mem_cons]
    exact .inl isPart
  · refine ⟨binding, node.tag, ⟨[node.left, node.right], ?_, by simp⟩, ?_, .inr isBinding⟩
    · exact children_of_isBinding present isBinding
    · rw [tag?, present]
      rfl

namespace Tree.Rooted

variable {tree : Tree} (rooted : tree.Rooted)

include rooted

/-- The tag of a child is among those that the tag of its parent admits. -/
theorem exists_admits
    {parent child : NodeId}
    (isChild : tree.IsChild parent child) :
    ∃ upper lower tags,
      tree.tag? parent = some upper ∧ tree.tag? child = some lower ∧ lower ∈ tags ∧
        upper.Admits tags := by
  obtain ⟨children, read, member⟩ := isChild
  obtain ⟨node, nodeRead, -⟩ := exists_of_bind_eq_ok read
  have tagged : tree.tag? parent = some node.tag := by
    rw [tag?, getElem?_of_node_eq_ok nodeRead]
    rfl
  have inside := (rooted.inside parent child ⟨children, read, member⟩).1
  have childTagged : tree.tag? child = some tree.nodes[child].tag := by
    rw [tag?, Array.getElem?_eq_getElem inside]
    rfl
  exact ⟨_, _, _, tagged, childTagged, List.mem_filterMap.mpr ⟨child, member, childTagged⟩,
    rooted.admits parent node.tag children tagged read⟩

/-- What stands directly below an expression or an operand is an operand. -/
theorem isOperand_of_isChild
    {parent child : NodeId}
    {upper : Tag}
    (tagged : tree.tag? parent = some upper)
    (inner : upper = .expression ∨ upper.isOperand = true)
    (isChild : tree.IsChild parent child) :
    ∃ lower, tree.tag? child = some lower ∧ lower.isOperand = true := by
  obtain ⟨other, lower, tags, otherTagged, lowerTagged, member, admits⟩ :=
    rooted.exists_admits isChild
  cases tagged.symm.trans otherTagged
  refine ⟨lower, lowerTagged, ?_⟩
  cases upper with
  | expression | unary | binary | call => exact admits lower member
  | identifier | literal =>
      rw [admits] at member
      cases member
  | _ => simp [Tag.isOperand] at inner

/-- Below an expression there are only operands. -/
theorem isOperand_of_isBelow
    {upper lower : NodeId}
    (tagged : tree.tag? upper = some .expression)
    (below : tree.IsBelow upper lower) :
    ∃ tag, tree.tag? lower = some tag ∧ tag.isOperand = true := by
  induction below with
  | single isChild => exact rooted.isOperand_of_isChild tagged (.inl rfl) isChild
  | tail _ isChild ih =>
      obtain ⟨tag, middleTagged, isOperand⟩ := ih
      exact rooted.isOperand_of_isChild middleTagged (.inr isOperand) isChild

/-- An operand has an expression or an operand above it, or else it is an identifier that
is declared. -/
theorem exists_parent_of_isOperand
    {id : NodeId}
    {tag : Tag}
    (tagged : tree.tag? id = some tag)
    (isOperand : tag.isOperand = true) :
    ∃ parent upper, tree.IsChild parent id ∧ tree.tag? parent = some upper ∧
      (upper = .expression ∨ (upper.isOperand = true ∧ upper ≠ .identifier) ∨
        (tag = .identifier ∧
          (upper = .function ∨ upper = .constant ∨ upper = .mutable))) := by
  obtain ⟨found, present, rfl⟩ := Option.map_eq_some_iff.mp tagged
  have inside := (Array.getElem?_eq_some_iff.mp present).1
  have notRoot : id ≠ root := by
    intro same
    rw [(rooted.isRoot id).mpr same, Option.some.injEq] at tagged
    simp [← tagged, Tag.isOperand] at isOperand
  obtain ⟨parent, isChild⟩ := rooted.exists_parent id inside notRoot
  obtain ⟨upper, lower, tags, upperTagged, lowerTagged, member, admits⟩ :=
    rooted.exists_admits isChild
  cases tagged.symm.trans lowerTagged
  exact ⟨parent, upper, isChild, upperTagged, admits.above_operand member isOperand⟩

/-- Operations and calls lie below an expression. -/
theorem exists_expression
    {id : NodeId}
    {tag : Tag}
    (tagged : tree.tag? id = some tag)
    (isOperand : tag.isOperand = true)
    (notIdentifier : tag ≠ .identifier) :
    ∃ outer, tree.tag? outer = some .expression ∧ tree.IsBelow outer id := by
  -- Parents of operands have greater numbers, so the way up comes to an end.
  obtain ⟨distance, isDistance⟩ : ∃ distance, tree.nodes.size - id = distance := ⟨_, rfl⟩
  induction distance using Nat.strongRecOn generalizing id tag with
  | ind distance ih =>
      obtain ⟨parent, upper, isChild, upperTagged, isAbove⟩ :=
        rooted.exists_parent_of_isOperand tagged isOperand
      rcases isAbove with rfl | ⟨upperIsOperand, upperNotIdentifier⟩ | ⟨isIdentifier, -⟩
      · exact ⟨parent, upperTagged, .single isChild⟩
      · have notRoot : parent ≠ root := by
          intro same
          rw [(rooted.isRoot parent).mpr same, Option.some.injEq] at upperTagged
          rw [← upperTagged] at upperIsOperand
          cases upperIsOperand
        have below := rooted.descends parent id isChild notRoot
        obtain ⟨found, present, -⟩ := Option.map_eq_some_iff.mp upperTagged
        have inside := (Array.getElem?_eq_some_iff.mp present).1
        have closer := Nat.sub_lt_sub_left (Nat.lt_trans below inside) below
        rw [isDistance] at closer
        obtain ⟨outer, isExpression, isBelow⟩ :=
          ih _ closer upperTagged upperIsOperand upperNotIdentifier rfl
        exact ⟨outer, isExpression, .tail isBelow isChild⟩
      · exact absurd isIdentifier notIdentifier

/-- An identifier that is a child of a declaration is declared there. -/
theorem isDeclared_of_isChild
    {parent id : NodeId}
    {upper : Tag}
    (tagged : tree.tag? id = some .identifier)
    (isChild : tree.IsChild parent id)
    (upperTagged : tree.tag? parent = some upper)
    (declares : upper = .function ∨ upper = .constant ∨ upper = .mutable) :
    tree.IsDeclared id := by
  -- The last child of a declaration is a body or a value, and no identifier.
  have notLast : ∀ {front : List NodeId} {tags : List Tag} {last : Tag},
      (front ++ [id]).filterMap tree.tag? = tags ++ [last] -> last = .identifier := by
    intro front tags last same
    rw [List.filterMap_append, List.filterMap_cons_some tagged] at same
    have lasts := (List.append_inj' same rfl).2
    simpa using lasts.symm
  obtain ⟨children, read, member⟩ := isChild
  have admits := rooted.admits parent upper children upperTagged read
  obtain ⟨found, present, rfl⟩ := Option.map_eq_some_iff.mp upperTagged
  rcases declares with isFunction | isBinding
  · obtain ⟨parts, partsRead⟩ : ∃ parts, tree.functionParts parent = .ok parts := by
      simp only [Tree.children, node_eq_ok present, bind, Except.bind, isFunction] at read
      cases partsRead : tree.functionParts parent with
      | error fault => simp [partsRead] at read
      | ok parts => exact ⟨parts, rfl⟩
    cases read.symm.trans (children_of_functionParts present isFunction partsRead)
    rw [isFunction] at admits upperTagged
    obtain ⟨parameters, tags⟩ := admits
    rcases List.mem_append.mp member with isPart | isBody
    · exact .inl ⟨parent, parts, upperTagged, partsRead, List.mem_cons.mp isPart⟩
    · rw [← List.mem_singleton.mp isBody] at tags
      cases notLast tags
  · cases read.symm.trans (children_of_isBinding present isBinding)
    rcases List.mem_pair.mp member with same | same
    · exact .inr ⟨parent, found, present, isBinding, same.symm⟩
    · rw [← same] at admits
      have tags : ([found.left] ++ [id]).filterMap tree.tag? = [.identifier] ++ [.expression] := by
        rcases isBinding with isConstant | isMutable
        · rwa [isConstant] at admits
        · rwa [isMutable] at admits
      cases notLast tags

/-- An identifier lies outside of all expressions just if it is declared. -/
theorem isDeclared_iff
    {id : NodeId}
    (tagged : tree.tag? id = some .identifier) :
    tree.IsDeclared id ↔
      ∀ outer, tree.tag? outer = some .expression -> ¬ tree.IsBelow outer id := by
  constructor
  · intro declared outer isExpression below
    obtain ⟨parent, upper, isChild, upperTagged, declares⟩ := declared.exists_parent
    -- The only parent of the identifier would be an expression or an operand.
    obtain ⟨other, tag, otherIsChild, otherTagged, inner⟩ :
        ∃ other tag, tree.IsChild other id ∧ tree.tag? other = some tag ∧
          (tag = .expression ∨ tag.isOperand = true) := by
      cases below with
      | single isChild => exact ⟨outer, _, isChild, isExpression, .inl rfl⟩
      | tail above isChild =>
          obtain ⟨tag, middleTagged, isOperand⟩ :=
            rooted.isOperand_of_isBelow isExpression above
          exact ⟨_, tag, isChild, middleTagged, .inr isOperand⟩
    cases rooted.unique _ _ _ isChild otherIsChild
    cases upperTagged.symm.trans otherTagged
    rcases declares with rfl | rfl | rfl
    · simp [Tag.isOperand] at inner
    · simp [Tag.isOperand] at inner
    · simp [Tag.isOperand] at inner
  · intro outside
    obtain ⟨parent, upper, isChild, upperTagged, isAbove⟩ :=
      rooted.exists_parent_of_isOperand tagged rfl
    rcases isAbove with rfl | ⟨upperIsOperand, upperNotIdentifier⟩ | ⟨-, declares⟩
    · exact absurd (.single isChild) (outside parent upperTagged)
    · obtain ⟨outer, isExpression, below⟩ :=
        rooted.exists_expression upperTagged upperIsOperand upperNotIdentifier
      exact absurd (.tail below isChild) (outside outer isExpression)
    · exact rooted.isDeclared_of_isChild tagged isChild upperTagged declares

end Tree.Rooted

end Frontend
