import Frontend.Proofs.Grammar.Leaves
import Frontend.Proofs.Grammar.Legible
import Frontend.Proofs.Syntax.Family

/-!
# Well-formed trees

Every tree that is read from a stream is well-formed: its nodes make up one tree below
the root, its side array is divided among the nodes, a walk goes through each node once,
and meets the identifiers and literals of the stream in order.
-/

namespace Frontend

namespace Event

/-- The node that is entered by this step, if one is. -/
def entered? : Event -> Option NodeId
  | .enter id => some id
  | .leave _ => none

/-- The node that is left by this step, if one is. -/
def left? : Event -> Option NodeId
  | .enter _ => none
  | .leave id => some id

theorem entered?_around (id : NodeId) (inner : List Event) :
    (around id inner).filterMap entered? = id :: inner.filterMap entered? := by
  simp [around, entered?]

theorem left?_around (id : NodeId) (inner : List Event) :
    (around id inner).filterMap left? = inner.filterMap left? ++ [id] := by
  simp [around, left?, List.filterMap_cons]

end Event

namespace Tree

variable (tree : Tree)

/-- The stretches of the side array that the nodes name, in the order of the nodes. -/
def stretches : List Stretch :=
  tree.nodes.toList.flatMap (Node.stretches tree.extra)

/-- The tag and the main token of a node that is an identifier or a literal. -/
def leaf? (id : NodeId) : Option (Tag × TokenId) :=
  tree.nodes[id]?.bind fun node =>
    if node.tag.isLeaf then some (node.tag, node.token) else none

/-- What a tree keeps to that is read from a stream. -/
structure WellFormed (stream : Stream) : Prop where
  rooted : tree.Rooted
  token_lt : ∀ (id : NodeId) (node : Node), tree.nodes[id]? = some node ->
    node.token < tree.tokens.size
  inside : ∀ stretch ∈ tree.stretches,
    stretch.start ≤ stretch.stop ∧ stretch.stop ≤ tree.extra.size
  apart : tree.stretches.Pairwise fun first second =>
    first.stop ≤ second.start ∨ second.stop ≤ first.start
  /-- A walk enters and leaves each node once. The leaves that it enters are those of the
  stream up to the first token that ends the file. -/
  walked : ∃ events stop,
    tree.events = .ok events ∧
      (events.filterMap Event.entered?).Perm (List.range tree.nodes.size) ∧
      (events.filterMap Event.left?).Perm (List.range tree.nodes.size) ∧
      stream.kindAt? stop = some .endOfFile ∧
      (∀ place, place < stop -> stream.kindAt? place ≠ some .endOfFile) ∧
      (events.filterMap Event.entered?).filterMap tree.leaf? =
        (List.range stop).filterMap stream.leafAt?
  /-- Below an expression there are only operands. -/
  isOperand : ∀ upper lower,
    tree.tag? upper = some .expression -> tree.IsBelow upper lower ->
      ∃ tag, tree.tag? lower = some tag ∧ tag.isOperand = true
  isDeclared_iff : ∀ id, tree.tag? id = some .identifier ->
    (tree.IsDeclared id ↔
      ∀ outer, tree.tag? outer = some .expression -> ¬ tree.IsBelow outer id)

end Tree

/-! ## Walks -/

namespace Outline

/-- A walk enters the parts of an outline, each before its children. -/
theorem entered_events (outline : Outline Mark) :
    outline.events.filterMap Event.entered? = outline.parts.map (·.label.node) := by
  induction outline with
  | node mark tag children inside =>
      have below : (children.map events).map (List.filterMap Event.entered?) =
          (children.map parts).map (List.map (·.label.node)) := by
        rw [List.map_map, List.map_map]
        exact List.map_congr_left inside
      rw [events, Event.entered?_around, List.filterMap_flatten, below, parts_node,
        List.map_cons, List.map_flatten, label_node]

/-- A walk leaves the nodes of an outline, each after its children. -/
theorem left_events (outline : Outline Mark) :
    outline.events.filterMap Event.left? = outline.labels.map Mark.node := by
  induction outline with
  | node mark tag children inside =>
      have below : (children.map events).map (List.filterMap Event.left?) =
          (children.map labels).map (List.map Mark.node) := by
        rw [List.map_map, List.map_map]
        exact List.map_congr_left inside
      rw [events, Event.left?_around, List.filterMap_flatten, below, labels,
        List.map_append, List.map_flatten, List.map_singleton]

end Outline

namespace Tree.Represents

variable {tree : Tree} {program : Program Mark} (represents : tree.Represents program)

include represents

/-- The leaves of the nodes in the order of a walk are those of the program. -/
theorem filterMap_leaf? :
    (program.outline.parts.map (·.label.node)).filterMap tree.leaf? =
      program.outline.leaves.map (Prod.map id Mark.token) := by
  have found : ∀ part ∈ program.outline.parts,
      tree.leaf? part.label.node =
        if part.tag.isLeaf then some (part.tag, part.label.token) else none := by
    intro part isPart
    obtain ⟨left, right, present⟩ := (represents.isHeld part isPart).present
    rw [leaf?, present]
    rfl
  rw [Outline.leaves, List.map_map, List.filterMap_map, ← List.filterMap_eq_map,
    ← List.filterMap_eq_filter, List.filterMap_filterMap]
  apply List.filterMap_congr
  intro part isPart
  rw [Function.comp_apply, found part isPart]
  cases isLeaf : part.tag.isLeaf <;> simp [Option.guard, isLeaf]

/-- A walk goes through each node once, and meets the leaves of the stream that the
program is derived from. -/
theorem exists_walk
    (small : tree.nodes.size ≤ Node.absent)
    {stream : Stream}
    (derived : stream.Derives (program.map Mark.token)) :
    ∃ events stop,
      tree.events = .ok events ∧
        (events.filterMap Event.entered?).Perm (List.range tree.nodes.size) ∧
        (events.filterMap Event.left?).Perm (List.range tree.nodes.size) ∧
        stream.kindAt? stop = some .endOfFile ∧
        (∀ place, place < stop -> stream.kindAt? place ≠ some .endOfFile) ∧
        (events.filterMap Event.entered?).filterMap tree.leaf? =
          (List.range stop).filterMap stream.leafAt? := by
  obtain ⟨stop, ended, reads⟩ := derived.exists_reads
  have walk := represents.events small
  rw [← program.events_outline] at walk
  have labelled := program.outline.map_label_parts_perm.map Mark.node
  rw [List.map_map] at labelled
  refine ⟨_, stop, walk, ?_, ?_, ended, fun place below => ?_, ?_⟩
  · rw [Outline.entered_events]
    exact represents.nodes_perm
  · rw [Outline.left_events]
    exact labelled.symm.trans represents.nodes_perm
  · exact reads.goesOn place (Nat.zero_le place) below
  · rw [Outline.entered_events, represents.filterMap_leaf?, List.range_eq_range',
      ← Nat.sub_zero stop, reads.leaves, Program.outline_map, Outline.leaves_map]

end Tree.Represents

/-! ## The side array -/

/-- The root names the last stretch of the side array. The other nodes name the stretches
before it, one after another. -/
theorem Stream.exists_tiles
    {stream : Stream}
    (ends : stream.Ends)
    {tree : Tree}
    (made : stream.tree = .ok tree) :
    ∃ outer inner middle,
      tree.nodes.toList = outer :: inner ∧
        Tiles 0 middle (inner.flatMap (Node.stretches tree.extra)) ∧
        Tiles middle tree.extra.size (outer.stretches tree.extra) := by
  obtain ⟨ids, middle, read, -, rfl⟩ := (tree_eq_ok ends).mp made
  have ready : Parser.Ready stream Parser.rooted := ends.nonempty
  obtain ⟨statements, built, -, -, -⟩ :=
    Parser.areStatements_of_programStatements ends ready read
  obtain ⟨inner, nodes, tiles⟩ := built.grown.laidOut
  refine ⟨⟨.root, 0, middle.extra.size, middle.extra.size + ids.length⟩, inner,
    middle.extra.size, ?_, ?_, tiles_run middle.extra ids⟩
  · have rooted : Parser.rooted.nodes.toList = [⟨.root, 0, 0, 0⟩] := rfl
    simp only [Parser.withRoot, nodes, Array.toList_setIfInBounds, Array.toList_appendList,
      rooted]
    rfl
  · -- The run of the root is written behind all others, and changes none of them.
    have same := tiles.stretches_eq (.append middle.extra ids)
    exact same ▸ tiles

/-- Every tree that is read from a stream is well-formed. -/
theorem Stream.tree_is_wellFormed
    {stream : Stream}
    (ends : stream.Ends)
    {tree : Tree}
    (made : stream.tree = .ok tree)
    (small : tree.nodes.size ≤ Node.absent) :
    tree.WellFormed stream := by
  obtain ⟨program, represents, derived⟩ := stream.exists_represents ends made
  have rooted := represents.rooted small
  obtain ⟨outer, inner, middle, nodes, innerTiles, outerTiles⟩ := exists_tiles ends made
  have stretches : tree.stretches = outer.stretches tree.extra ++
      inner.flatMap (Node.stretches tree.extra) := by
    rw [Tree.stretches, nodes, List.flatMap_cons]
  constructor
  case rooted => exact rooted
  case token_lt =>
    intro id node present
    obtain ⟨part, isPart, -, -, -, sameToken⟩ := represents.exists_isHeld present
    obtain ⟨_, _, _, _, rfl⟩ := (tree_eq_ok ends).mp made
    rw [← sameToken]
    apply derived.lt_size ends
    rw [Program.labels_map]
    exact List.mem_map_of_mem (Program.label_mem_labels isPart)
  case inside =>
    intro stretch member
    rw [stretches, List.mem_append] at member
    rcases member with member | member
    · exact (outerTiles.inside member).2
    · obtain ⟨-, ordered, below⟩ := innerTiles.inside member
      exact ⟨ordered, Nat.le_trans below outerTiles.le⟩
  case apart =>
    rw [stretches, List.pairwise_append]
    refine ⟨outerTiles.pairwise.imp .inl, innerTiles.pairwise.imp .inl, ?_⟩
    intro last isLast earlier isEarlier
    exact .inr (Nat.le_trans (innerTiles.inside isEarlier).2.2 (outerTiles.inside isLast).1)
  case walked => exact represents.exists_walk small derived
  case isOperand => exact fun upper lower => rooted.isOperand_of_isBelow
  case isDeclared_iff => exact fun id => rooted.isDeclared_iff

/-- The tokens of `fn f(a) { return g(a) }`, and an identifier after the end of the
file. -/
def Stream.overlong : Stream :=
  ofKinds [.fnWord, .identifier, .openParen, .identifier, .closeParen, .openCurly,
    .returnWord, .identifier, .openParen, .identifier, .closeParen, .closeCurly, .endOfFile,
    .identifier, .endOfFile]

theorem Stream.tree_is_wellFormed_overlong :
    overlong.Ends ∧
      ∃ tree, overlong.tree = .ok tree ∧ tree.nodes.size ≤ Node.absent ∧
        tree.WellFormed overlong := by
  have ends : overlong.Ends := by decide
  obtain ⟨tree, made, small⟩ :
      ∃ tree, overlong.tree = .ok tree ∧ tree.nodes.size ≤ Node.absent := by
    refine ⟨_, by cbv, ?_⟩
    cbv
  exact ⟨ends, tree, made, small, tree_is_wellFormed ends made small⟩

end Frontend
