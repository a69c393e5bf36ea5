import Frontend.Proofs.Analysis.Totality
import Frontend.Proofs.Grammar.WellFormed
import Frontend.Proofs.Scope.Balance

/-!
# Scopes of a source

The walk that resolves the names of a source comes out of every statement and of every whole
expression with the scopes and the flags that it has come in with. Only the name of a
declaration stays in force around it. In the end no scope is open, and there is one record
for every scope and for every declared name.
-/

namespace Frontend

namespace Tree

variable (tree : Tree)

/-- The node is a lexical scope. -/
def isScope (node : NodeId) : Bool :=
  (tree.tag? node).any Tag.isScope

/-- The name that a node declares in the scope around it: that of a function, of a constant
or of a variable. -/
def introducedBy (node : NodeId) : List NodeId :=
  match tree.nodes[node]? with
  | some ⟨.function, _, name, _⟩ => [name]
  | some ⟨.constant, _, name, _⟩ => [name]
  | some ⟨.mutable, _, name, _⟩ => [name]
  | _ => []

/-- The parameters of a function. -/
def parametersOf (node : NodeId) : List NodeId :=
  if tree.tag? node = some .function then
    match tree.functionParts node with
    | .ok parts => parts.parameters
    | .error _ => []
  else
    []

/-- All names that are declared in a tree, by the nodes that declare them. -/
def declaredNames : List NodeId :=
  (List.range tree.nodes.size).flatMap fun node =>
    tree.introducedBy node ++ tree.parametersOf node

end Tree

namespace Outline.Stands

variable {tree : Tree} {outline : Outline Mark} (stands : outline.Stands tree)

include stands

theorem isScope_eq : tree.isScope outline.label.node = outline.tag.isScope := by
  rw [Tree.isScope, stands.tag?_eq]
  rfl

/-- The names that a node declares can be read from the tree. -/
theorem declaredBy_eq :
    tree.introducedBy outline.label.node = outline.declared.take 1 ∧
      tree.introducedBy outline.label.node ++ tree.parametersOf outline.label.node =
        outline.declared := by
  obtain ⟨left, right, present⟩ := stands.present
  have read := stands.children
  simp only [Tree.children, Tree.node_eq_ok present, bind, Except.bind] at read
  rw [Tree.introducedBy, Tree.parametersOf, Tree.tag?, present, declared]
  cases tagged : outline.tag with
  | function =>
      rw [tagged] at read present
      obtain ⟨parts, partsRead, same⟩ := exists_of_bind_eq_ok read
      have named : parts.name = left := by
        obtain ⟨_, found, partsRead⟩ := exists_of_bind_eq_ok partsRead
        cases (Tree.node_eq_ok present).symm.trans found
        obtain ⟨_, -, partsRead⟩ := exists_of_bind_eq_ok partsRead
        obtain ⟨_, -, partsRead⟩ := exists_of_bind_eq_ok partsRead
        obtain ⟨_, -, partsRead⟩ := exists_of_bind_eq_ok partsRead
        obtain ⟨_, -, partsRead⟩ := exists_of_bind_eq_ok partsRead
        cases partsRead
        rfl
      have all : (outline.children.map (·.label.node)).dropLast =
          parts.name :: parts.parameters := by
        rw [← Except.ok.inj same, List.dropLast_concat]
      simp only [partsRead, all, named]
      exact ⟨rfl, rfl⟩
  | constant | mutable =>
      rw [tagged] at read
      rw [← Except.ok.inj read]
      exact ⟨rfl, rfl⟩
  | _ => exact ⟨rfl, rfl⟩

end Outline.Stands

namespace Tree.Legible

variable {tree : Tree} {program : Program Mark} (legible : tree.Legible program)

include legible

/-- The scopes of a program are the nodes that are scopes. -/
theorem anchors_perm :
    program.outline.anchors.Perm ((List.range tree.nodes.size).filter tree.isScope) := by
  have same : program.outline.anchors =
      (program.outline.parts.map (·.label.node)).filter tree.isScope := by
    rw [Outline.anchors, List.filter_map]
    congr 1
    refine List.filter_congr fun part isPart => ?_
    exact (legible.stands part isPart).isScope_eq.symm
  rw [same]
  exact legible.represents.nodes_perm.filter _

/-- The names that are declared in a program are those that the nodes declare. -/
theorem bindings_perm : program.outline.bindings.Perm tree.declaredNames := by
  have same : program.outline.bindings = (program.outline.parts.map (·.label.node)).flatMap
      fun node => tree.introducedBy node ++ tree.parametersOf node := by
    rw [Outline.bindings, List.flatMap_map]
    refine List.flatMap_congr fun part isPart => ?_
    exact (legible.stands part isPart).declaredBy_eq.2.symm
  rw [same]
  exact legible.represents.nodes_perm.flatMap_right _

/-- No name is declared twice, since it is the child of only one node. -/
theorem bindings_nodup : program.outline.bindings.Nodup := by
  have children : (program.outline.parts.flatMap
      fun part => part.children.map (·.label.node)).Nodup := by
    have all := legible.represents.children_perm.nodup_iff.mpr List.nodup_range
    rw [List.flatMap_def]
    exact (List.nodup_cons.mp all).2
  refine children.sublist (List.Sublist.flatMap_right _ fun part _ => ?_)
  rw [Outline.declared]
  split
  · exact List.dropLast_sublist _
  · exact List.take_sublist 1 _
  · exact List.take_sublist 1 _
  · exact List.nil_sublist _

/-- The walk enters and leaves each scope once. -/
theorem scopes_entered_and_left :
    (program.outline.events.filterMap Event.entered?).countP tree.isScope =
        (List.range tree.nodes.size).countP tree.isScope ∧
      (program.outline.events.filterMap Event.left?).countP tree.isScope =
        (List.range tree.nodes.size).countP tree.isScope := by
  have nodes := legible.represents.nodes_perm
  have labels := program.outline.map_label_parts_perm.map Mark.node
  rw [List.map_map] at labels
  rw [Outline.entered_events, Outline.left_events]
  exact ⟨nodes.countP_eq _, (labels.symm.trans nodes).countP_eq _⟩

end Tree.Legible

/-- Items can be counted by their places. -/
theorem countP_range_getElem?
    {Item : Type}
    (items : List Item)
    (property : Item -> Bool) :
    (List.range items.length).countP (fun place => items[place]?.any property) =
      items.countP property := by
  induction items with
  | nil => rfl
  | cons item items ih =>
      rw [List.length_cons, List.range_succ_eq_map, List.countP_cons, List.countP_cons,
        List.countP_map]
      simp [Function.comp_def, ih]

/-- The scopes of a tree can be counted by their nodes. -/
theorem Tree.countP_isScope (tree : Tree) :
    (List.range tree.nodes.size).countP tree.isScope =
      tree.nodes.toList.countP (·.tag.isScope) := by
  have places := countP_range_getElem? tree.nodes.toList (·.tag.isScope)
  rw [Array.length_toList] at places
  rw [← places]
  refine List.countP_congr fun node _ => ?_
  rw [Tree.isScope, Tree.tag?, Option.any_map, Array.getElem?_toList]

/-- Records are those of scopes or those of names. -/
theorem Scopes.length_filterMap_records (scopes : Scopes) :
    (scopes.declarations.toList.filterMap Declaration.anchor?).length =
        scopes.declarations.toList.countP (!·.isBinding) ∧
      (scopes.declarations.toList.filterMap Declaration.binding?).length =
        scopes.declarations.toList.countP (·.isBinding) := by
  induction scopes.declarations.toList with
  | nil => exact ⟨rfl, rfl⟩
  | cons declaration declarations ih =>
      cases isBinding : declaration.isBinding <;>
        simp [Declaration.anchor?, Declaration.binding?, isBinding, ih]

namespace Resolution

/-- What is said of the state at the end of the walk through a tree. -/
structure IsDone (tree : Tree) (resolution : Resolution) : Prop where
  isBalanced : resolution.scopes.isBalanced = true
  depth : resolution.scopes.depth = 0
  /-- A scope was opened and closed for each root, function and block. -/
  entered : resolution.scopes.entered = tree.nodes.toList.countP (·.tag.isScope)
  exited : resolution.scopes.exited = tree.nodes.toList.countP (·.tag.isScope)
  visible : resolution.scopes.visible.length = 0
  /-- There is one record for each root, function and block. -/
  anchors : resolution.scopes.declarations.toList.countP (!·.isBinding) =
    tree.nodes.toList.countP (·.tag.isScope)
  /-- There is one record for each function, parameter, constant and variable. -/
  bindings : resolution.scopes.declarations.toList.countP (·.isBinding) =
    tree.declaredNames.length
  names : (resolution.scopes.declarations.toList.filterMap Declaration.binding?).Perm
    tree.declaredNames
  /-- No name is declared twice. -/
  nodup : (resolution.scopes.declarations.toList.filterMap Declaration.binding?).Nodup

end Resolution

namespace Source

/-- The resolution of the names of a source that can be read is balanced. -/
theorem resolution_is_balanced
    {source : Source}
    {tree : Tree}
    (made : source.tree = .ok tree)
    (addressable : tree.Addressable) :
    ∃ events, tree.events = .ok events ∧
      (∀ (node : NodeId) (tag : Tag), tree.tag? node = some tag ->
        tag.isStatement = true ∨ tag = .expression ->
          ∃ inner, tree.eventsFrom node = .ok inner ∧ inner <:+: events ∧
            ∀ passed rest, events = passed ++ inner ++ rest ->
              ∃ before after anchors bindings,
                passed.foldlM (Resolution.step tree) {} = .ok before ∧
                inner.foldlM (Resolution.step tree) before = .ok after ∧
                after.scopes.depth = before.scopes.depth ∧
                Resolution.Keeps (tree.introducedBy node) anchors bindings before after) ∧
      (events.filterMap Event.entered?).countP tree.isScope =
        (events.filterMap Event.left?).countP tree.isScope ∧
      ∃ resolution, tree.resolution = .ok resolution ∧ resolution.IsDone tree := by
  obtain ⟨stream, program, -, derived, legible⟩ := exists_legible made addressable
  have stands := legible.stands
  have walk := legible.represents.events legible.small
  rw [← program.events_outline] at walk
  obtain ⟨entered, left⟩ := legible.scopes_entered_and_left
  refine ⟨program.outline.events, walk, ?_, entered.trans left.symm, ?_⟩
  · intro node tag tagged isPhrase
    obtain ⟨found, present, rfl⟩ := Option.map_eq_some_iff.mp tagged
    obtain ⟨part, isPart, -, rfl, sameTag, -⟩ := legible.represents.exists_isHeld present
    rw [← sameTag] at isPhrase tagged
    have noOperand : part.tag.isOperand = false := by
      rcases isPhrase with isStatement | isExpression
      · exact Tag.isOperand_of_isStatement isStatement
      · rw [isExpression]
        rfl
    have partStands : ∀ lower ∈ part.parts, lower.Stands tree := fun lower isLower =>
      stands lower (Outline.parts_subset isPart isLower)
    refine ⟨part.events, legible.represents.eventsFrom_eq legible.small isPart, ?_, ?_⟩
    · obtain ⟨passed, reaches⟩ := Outline.exists_reaches_of_mem isPart
      obtain ⟨rest, split⟩ := reaches.exists_rest
      exact ⟨passed, rest, split.symm⟩
    · intro passed rest split
      rw [part.events_eq, List.append_assoc, List.cons_append, List.cons_append] at split
      obtain ⟨earlier, other, reaches, ⟨entering, rfl⟩ | ⟨leaving, -⟩⟩ :=
        Outline.exists_reaches split
      · have sameNode : part.label.node = other.label.node := Event.enter.inj entering
        have otherTagged := (stands other reaches.mem_parts).tag?_eq
        rw [← sameNode, tagged, Option.some.injEq] at otherTagged
        obtain ⟨before, ran, outside, noneWaiting⟩ :=
          reaches.exists_resolution stands {} rfl rfl (otherTagged ▸ noOperand)
        obtain ⟨after, ranMore, keeps⟩ :=
          Outline.isBalanced partStands noOperand before outside noneWaiting
        rw [← (stands part isPart).declaredBy_eq.1] at keeps
        exact ⟨before, after, _, _, ran, ranMore, keeps.depth, keeps⟩
      · cases leaving
  · obtain ⟨resolution, ran, keeps⟩ := Outline.isBalanced stands rfl {} rfl rfl
    have noneVisible : resolution.scopes.visible = [] := by
      obtain ⟨ids, window, declares⟩ := keeps.visible
      cases declares
      exact window
    obtain ⟨added, records, anchors, bindings⟩ := keeps.records
    obtain rfl : resolution.scopes.declarations.toList = added := records
    have lengths := resolution.scopes.length_filterMap_records
    rw [anchors, bindings] at lengths
    have scopes := legible.anchors_perm.length_eq
    rw [← List.countP_eq_length_filter, tree.countP_isScope] at scopes
    have entered := keeps.entered.trans (Nat.zero_add _)
    have exited := keeps.exited.trans (Nat.zero_add _)
    refine ⟨resolution, by rw [Tree.resolution, walk]; exact ran, ?_⟩
    exact
      { isBalanced := by simp [Scopes.isBalanced, entered, exited, keeps.frames, noneVisible]
        depth := keeps.depth
        entered := entered.trans scopes
        exited := exited.trans scopes
        visible := by rw [noneVisible, List.length_nil]
        anchors := lengths.1.symm.trans scopes
        bindings := by rw [← lengths.2, legible.bindings_perm.length_eq]
        names := bindings ▸ legible.bindings_perm
        nodup := bindings ▸ legible.bindings_nodup }

/-- A function with a parameter, a variable and a block in it. -/
def nestedScopes : Source :=
  .ofText "fn f(a) \x7bvar b = a; \x7bb = 1\x7d\x7d" none

/-- The variable stays in force in the body of the function, and three names are declared. -/
theorem resolution_is_balanced_nestedScopes :
    ∃ tree events, nestedScopes.tree = .ok tree ∧ tree.Addressable ∧
      tree.events = .ok events ∧ tree.tag? 6 = some .mutable ∧
      (∃ inner, tree.eventsFrom 6 = .ok inner ∧ inner <:+: events ∧
        ∀ passed rest, events = passed ++ inner ++ rest ->
          ∃ before after anchors bindings,
            passed.foldlM (Resolution.step tree) {} = .ok before ∧
            inner.foldlM (Resolution.step tree) before = .ok after ∧
            after.scopes.depth = before.scopes.depth ∧
            Resolution.Keeps [3] anchors bindings before after) ∧
      ∃ resolution, tree.resolution = .ok resolution ∧ resolution.IsDone tree ∧
        tree.declaredNames = [3, 1, 2] := by
  have parsed : ∃ tree, nestedScopes.tree = .ok tree ∧ tree.Addressable ∧
      tree.tag? 6 = some .mutable ∧ tree.introducedBy 6 = [3] ∧
      tree.declaredNames = [3, 1, 2] := by
    refine ⟨_, by cbv, ⟨?_, ?_⟩, ?_, ?_, ?_⟩
    all_goals cbv
  obtain ⟨tree, made, addressable, isVariable, introduced, declared⟩ := parsed
  obtain ⟨events, walk, balanced, -, resolution, resolved, done⟩ :=
    resolution_is_balanced made addressable
  have kept := balanced 6 .mutable isVariable (.inl rfl)
  rw [introduced] at kept
  exact ⟨tree, events, made, addressable, walk, isVariable, kept, resolution, resolved, done,
    declared⟩

end Source

end Frontend
