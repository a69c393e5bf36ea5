import Frontend.Proofs.Types.Canonical
import Frontend.Proofs.Types.WellFormed
import Frontend.Types.Inference

/-!
# Type tables

Every type of a well-formed graph has a text. A finished walk makes a table of the
graph, in which each type has the term of its representative, with representatives
for its parts. The table gives every type the tree that the graph gives it.
-/

namespace Frontend

/-! ## The texts of types -/

/-- The text of a tree whose variables are types. -/
def TypeTree.text : TypeTree TypeId -> String
  | .var id => s!"'t{id}"
  | .base kind => kind.name
  | .pointer pointee => s!"(^ {text pointee})"
  | .function subtypes => "(FN" ++ String.join ((subtypes.map text).map (" " ++ ·)) ++ ")"

/-- The text of a type is that of its tree, if its parts may be nested deeper than its
height. -/
theorem Repository.renderWithin_eq
    {repository : Repository}
    {resolve : TypeId -> TypeId}
    (resolve_lt : ∀ id, id < repository.size -> resolve id < repository.size)
    (height : TypeId -> Nat)
    (falls : ∀ id layer part,
      id < repository.size ->
        repository.layer? (resolve id) = some layer ->
          part ∈ layer.parts -> part < repository.size ∧ height part < height id)
    (depth : Nat)
    (id : TypeId)
    (bound : id < repository.size)
    (deep : height id < depth) :
    repository.renderWithin resolve depth id =
      .ok (repository.treeWithin resolve .var depth id).text := by
  induction depth generalizing id with
  | zero => omega
  | succ depth ih =>
      obtain ⟨term, found⟩ := (repository.exists_term_iff _).mpr (resolve_lt id bound)
      have known : repository.layer? (resolve id) = repository.layerOfTerm? term := by
        rw [layer?, found]
      have parts : ∀ layer, repository.layerOfTerm? term = some layer ->
          ∀ part ∈ layer.parts, repository.renderWithin resolve depth part =
            .ok (repository.treeWithin resolve .var depth part).text := by
        intro layer layerKnown part present
        obtain ⟨partBound, lower⟩ := falls id layer part bound (known.trans layerKnown) present
        exact ih part partBound (by omega)
      simp only [renderWithin, treeWithin, known, found, bind, Except.bind]
      cases term with
      | unbound => simp [layerOfTerm?, TypeTree.text, pure, Except.pure]
      | base base => simp [layerOfTerm?, TypeTree.text, TypeTree.ofLayer, Layer.map, pure,
          Except.pure]
      | pointer pointee =>
          have rendered := parts (.pointer pointee) rfl pointee (by simp [Layer.parts])
          simp [rendered, layerOfTerm?, TypeTree.text, TypeTree.ofLayer, Layer.map, pure,
            Except.pure]
      | function start stop =>
          have rendered := mapM_eq_ok (parts (.function _) rfl)
          rw [Layer.parts] at rendered
          simp [rendered, layerOfTerm?, TypeTree.text, TypeTree.ofLayer, Layer.map, pure,
            Except.pure, Function.comp_def]

namespace TypeGraph

variable {graph : TypeGraph}

/-- The text of a type of a well-formed graph, at every depth that is large enough. -/
theorem WellFormed.renderWithin_eq
    (wellFormed : graph.WellFormed)
    {id : TypeId}
    (bound : id < graph.repository.size)
    {depth : Nat}
    (deep : graph.repository.size < depth) :
    graph.repository.renderWithin graph.root depth id =
      .ok (graph.tree .var id).text := by
  obtain ⟨height, falls, bounded⟩ := wellFormed.exists_bounded
  have low := bounded (graph.root id)
  have rendered := Repository.renderWithin_eq wellFormed.root_lt
    (fun id => height (graph.root id))
    (fun id layer part _ known present =>
      ⟨wellFormed.part_lt _ layer known part present,
        falls _ layer part (root_root id) known present⟩)
    depth id bound (by omega)
  rw [rendered, tree, Repository.tree]
  rw [treeWithin_eq_of_height_lt TypeTree.var falls depth (graph.repository.size + 1) id
    (by omega) (by omega)]

/-- Every type of a well-formed graph has a text. -/
theorem WellFormed.exists_render
    (wellFormed : graph.WellFormed)
    {id : TypeId}
    (bound : id < graph.repository.size) :
    ∃ text, graph.render id = .ok text :=
  ⟨_, wellFormed.renderWithin_eq bound (Nat.lt_succ_self _)⟩

end TypeGraph

/-! ## Canonical repositories -/

namespace TypeGraph

variable {graph : TypeGraph}

/-- The types in the terms of a well-formed graph exist. -/
theorem WellFormed.partsExist (wellFormed : graph.WellFormed) :
    graph.repository.PartsExist := by
  intro entry member part present
  obtain ⟨id, bound, rfl⟩ := Array.mem_iff_getElem.mp member
  have found : graph.repository.term id = .ok graph.repository.entries[id].term := by
    rw [Repository.term, Repository.entry, Array.getElem?_eq_getElem bound]
    rfl
  rw [Repository.termSubtypes_eq_elim] at present
  cases known : graph.repository.layerOfTerm? graph.repository.entries[id].term with
  | none => simp [known] at present
  | some layer =>
      rw [known] at present
      exact wellFormed.part_lt id layer (by rw [Repository.layer?, found, ← known]) part present

/-- The canonical repository has the types of the graph, each with the term of its
representative, in which the parts are representatives. -/
theorem WellFormed.exists_canonicalize
    (wellFormed : graph.WellFormed)
    {representatives : Array TypeId}
    (represents : ∀ id, id < graph.repository.size ->
      representatives[id]? = some (graph.root id)) :
    ∃ canonical,
      graph.repository.canonicalize representatives = .ok canonical ∧
        canonical.size = graph.repository.size ∧
        (∀ id, id < graph.repository.size ->
          canonical.entries[id]?.map TypeEntry.node =
            graph.repository.entries[id]?.map TypeEntry.node) ∧
        (∀ id, id < graph.repository.size ->
          canonical.term id = canonical.term (graph.root id)) ∧
        ∀ id, id < graph.repository.size -> canonical.layer? id =
          (graph.repository.layer? (graph.root id)).map (Layer.map graph.root) := by
  obtain ⟨canonical, made⟩ := Repository.exists_canonicalize
    (fun id bound => ⟨_, represents id bound, wellFormed.root_lt id bound⟩)
    wellFormed.partsExist
    (fun pair member => (graph.repository.exists_term_iff _).mp ⟨_, wellFormed.bases pair member⟩)
  refine ⟨canonical, made, Repository.size_of_canonicalize made, fun id _ => ?_,
    fun id bound => ?_, fun id bound => ?_⟩
  · have nodes := congrArg (·[id]?) (Repository.nodes_of_canonicalize made)
    simpa only [List.getElem?_map, Array.getElem?_toList] using nodes
  · have topBound := wellFormed.root_lt id bound
    apply Repository.term_eq_of_canonicalize made bound topBound
    rw [represents id bound, represents _ topBound, root_root]
  · obtain ⟨top, original, term, represented, found, canonicalFound, restates⟩ :=
      Repository.exists_term_of_canonicalize made bound
    obtain rfl : graph.root id = top :=
      Option.some.inj ((represents id bound).symm.trans represented)
    have layer := restates.layer canonical rfl
    have known : graph.repository.layer? (graph.root id) =
        graph.repository.layerOfTerm? original := by rw [Repository.layer?, found]
    have canonicalKnown : canonical.layer? id = canonical.layerOfTerm? term := by
      rw [Repository.layer?, canonicalFound]
    rw [← known, ← canonicalKnown] at layer
    apply Option.map_injective (Layer.map_injective (Option.some_injective TypeId))
    rw [← layer, Option.map_map]
    -- The parts exist, so they have representatives.
    refine Option.map_congr fun top topKnown => ?_
    rw [Function.comp_apply, Layer.map_map]
    refine Layer.map_congr fun part present => ?_
    exact represents part (wellFormed.part_lt _ top topKnown part present)

end TypeGraph

/-! ## The table of a finished walk -/

namespace TypeTable

/-- The tree of a type, where a type of which nothing is known has the tree that its
representative is given. -/
def tree {Var : Type} (table : TypeTable) (values : TypeId -> TypeTree Var) (id : TypeId) :
    TypeTree Var :=
  table.repository.tree table.canonical values id

/-- The table gives the types of a graph the trees that they have there. -/
structure Presents (table : TypeTable) (graph : TypeGraph) : Prop where
  canonical : ∀ id, id < graph.repository.size -> table.canonical id = graph.root id
  size : table.repository.size = graph.repository.size
  node : ∀ id, id < graph.repository.size ->
    table.repository.entries[id]?.map TypeEntry.node =
      graph.repository.entries[id]?.map TypeEntry.node
  term : ∀ id, id < graph.repository.size ->
    table.repository.term id = table.repository.term (graph.root id)
  layer : ∀ id, id < graph.repository.size -> table.repository.layer? id =
    (graph.repository.layer? (graph.root id)).map (Layer.map graph.root)

namespace Presents

variable
  {table : TypeTable}
  {graph : TypeGraph}
  (presents : table.Presents graph)
  (wellFormed : graph.WellFormed)

include presents wellFormed

/-- What is known in the table of the representative of a type. -/
theorem layer_canonical
    {id : TypeId}
    (bound : id < graph.repository.size) :
    table.repository.layer? (table.canonical id) =
      (graph.repository.layer? (graph.root id)).map (Layer.map graph.root) := by
  rw [presents.canonical id bound, presents.layer _ (wellFormed.root_lt id bound),
    TypeGraph.root_root]

/-- Down to any depth, a type has the same tree in the table as in the graph. -/
theorem treeWithin_eq
    {Var : Type}
    (values : TypeId -> TypeTree Var)
    (depth : Nat)
    (id : TypeId)
    (bound : id < graph.repository.size) :
    table.repository.treeWithin table.canonical values depth id =
      graph.repository.treeWithin graph.root values depth id := by
  induction depth generalizing id with
  | zero => rw [Repository.treeWithin, Repository.treeWithin, presents.canonical id bound]
  | succ depth ih =>
      simp only [Repository.treeWithin, presents.layer_canonical wellFormed bound]
      rw [presents.canonical id bound]
      cases known : graph.repository.layer? (graph.root id) with
      | none => rfl
      | some layer =>
          simp only [Option.map_some, Layer.map_map]
          apply congrArg TypeTree.ofLayer
          apply Layer.map_congr
          intro part present
          have partBound := wellFormed.part_lt _ _ known part present
          rw [Function.comp_apply, ih _ (wellFormed.root_lt part partBound)]
          exact graph.repository.treeWithin_congr graph.root values
            (TypeGraph.root_root part) depth

/-- In the table a type has the same tree as in the graph. -/
theorem tree_eq
    {Var : Type}
    (values : TypeId -> TypeTree Var)
    {id : TypeId}
    (bound : id < graph.repository.size) :
    table.tree values id = graph.tree values id := by
  rw [tree, TypeGraph.tree, Repository.tree, Repository.tree, presents.size]
  exact presents.treeWithin_eq wellFormed values _ id bound

/-- In the table a type has the same text as in the graph, at every depth that is large
enough. -/
theorem renderWithin_eq
    {id : TypeId}
    (bound : id < graph.repository.size)
    {depth : Nat}
    (deep : graph.repository.size < depth) :
    table.repository.renderWithin table.canonical depth id =
      .ok (graph.tree .var id).text := by
  obtain ⟨height, falls, bounded⟩ := wellFormed.exists_bounded
  have low := bounded (graph.root id)
  have resolve_lt : ∀ id, id < table.repository.size ->
      table.canonical id < table.repository.size := by
    intro id bound
    rw [presents.size] at bound ⊢
    rw [presents.canonical id bound]
    exact wellFormed.root_lt id bound
  have lower : ∀ id layer part, id < table.repository.size ->
      table.repository.layer? (table.canonical id) = some layer ->
        part ∈ layer.parts -> part < table.repository.size ∧
          height (graph.root part) < height (graph.root id) := by
    intro id layer part bound known present
    rw [presents.size] at bound ⊢
    rw [presents.layer_canonical wellFormed bound] at known
    obtain ⟨top, topKnown, rfl⟩ := Option.map_eq_some_iff.mp known
    rw [Layer.parts_map, List.mem_map] at present
    obtain ⟨topPart, topPresent, rfl⟩ := present
    rw [TypeGraph.root_root]
    exact ⟨wellFormed.root_lt _ (wellFormed.part_lt _ top topKnown topPart topPresent),
      falls _ top topPart (TypeGraph.root_root id) topKnown topPresent⟩
  rw [Repository.renderWithin_eq resolve_lt (fun id => height (graph.root id)) lower depth id
    (by rwa [presents.size]) (by omega), presents.treeWithin_eq wellFormed _ _ _ bound]
  rw [TypeGraph.tree, Repository.tree, TypeGraph.treeWithin_eq_of_height_lt TypeTree.var falls
    depth (graph.repository.size + 1) id (by omega) (by omega)]

end Presents

end TypeTable

/-- A finished walk with a well-formed graph makes a table of it. -/
theorem Inference.exists_table
    {inference : Inference}
    (wellFormed : inference.graph.WellFormed)
    (finished : inference.operands = []) :
    ∃ table, inference.table = .ok table ∧ table.nodeTypes = inference.nodeTypes ∧
      table.nameTypes = inference.nameTypes ∧ table.Presents inference.graph := by
  have present : ∀ id, id < inference.graph.repository.size ->
      inference.representatives[id]? = some (inference.graph.root id) := by
    intro id bound
    simp [representatives, bound]
  obtain ⟨repository, canonical, size, node, term, layer⟩ :=
    wellFormed.exists_canonicalize present
  let made : TypeTable :=
    { repository
      representatives := inference.representatives
      nodeTypes := inference.nodeTypes
      nameTypes := inference.nameTypes }
  refine ⟨made, ?_, rfl, rfl, ?_, size, node, term, layer⟩
  · simp only [table, finished, canonical]
    rfl
  · intro id bound
    rw [TypeTable.canonical, present id bound, Option.getD_some]

end Frontend
