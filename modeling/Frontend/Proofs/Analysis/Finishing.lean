import Frontend.Proofs.Analysis.Totality

/-!
# Tables of finished walks

A walk through a program is finished by a table, in which every type has the term of its
representative. The table is about the same types as the graph of the walk: it tells for
each of them the same node, the same representative and the same text, also where types
have clashed.
-/

namespace Frontend

/-- The table says of every type of a graph what the graph says. -/
structure TypeTable.Keeps (table : TypeTable) (graph : TypeGraph) : Prop where
  size : table.repository.size = graph.repository.size
  node : ∀ id, id < graph.repository.size ->
    table.repository.entries[id]?.map TypeEntry.node =
      graph.repository.entries[id]?.map TypeEntry.node
  canonical : ∀ id, id < graph.repository.size -> table.canonical id = graph.root id
  idempotent : ∀ id, id < graph.repository.size ->
    table.canonical (table.canonical id) = table.canonical id
  term : ∀ id, id < graph.repository.size -> ∃ term,
    table.repository.term id = .ok term ∧
      table.repository.term (table.canonical id) = .ok term
  subtypes : ∀ id, id < graph.repository.size -> ∃ subtypes,
    table.repository.subtypes id = .ok subtypes ∧
      ∀ part ∈ subtypes, part < table.repository.size ∧ table.canonical part = part
  render : ∀ id, id < graph.repository.size -> ∃ text,
    graph.render id = .ok text ∧ table.render id = .ok text

/-- The subtypes of a type in the table are representatives of types of the graph. -/
theorem TypeTable.Presents.exists_subtypes
    {table : TypeTable}
    {graph : TypeGraph}
    (presents : table.Presents graph)
    (wellFormed : graph.WellFormed)
    {id : TypeId}
    (bound : id < graph.repository.size) :
    ∃ subtypes : List TypeId,
      table.repository.subtypes id = .ok (subtypes.map graph.root) ∧
        ∀ part ∈ subtypes, part < graph.repository.size := by
  have read := @TypeGraph.subtypes_eq { repository := table.repository } id
    (presents.size.symm ▸ bound)
  simp only [presents.layer id bound] at read
  cases known : graph.repository.layer? (graph.root id) with
  | none =>
      rw [known] at read
      exact ⟨[], read, by simp⟩
  | some layer =>
      rw [known, Option.map_some, Option.elim_some, Layer.parts_map] at read
      exact ⟨layer.parts, read, wellFormed.part_lt _ layer known⟩

/-- A table that presents a well-formed graph keeps all of its types. -/
theorem TypeTable.Presents.keeps
    {table : TypeTable}
    {graph : TypeGraph}
    (presents : table.Presents graph)
    (wellFormed : graph.WellFormed) :
    table.Keeps graph where
  size := presents.size
  node := presents.node
  canonical := presents.canonical
  idempotent := by
    intro id bound
    rw [presents.canonical id bound, presents.canonical _ (wellFormed.root_lt id bound),
      TypeGraph.root_root]
  term := by
    intro id bound
    obtain ⟨term, found⟩ :=
      (table.repository.exists_term_iff id).mpr (presents.size.symm ▸ bound)
    refine ⟨term, found, ?_⟩
    rw [presents.canonical id bound, ← presents.term id bound, found]
  subtypes := by
    intro id bound
    obtain ⟨subtypes, read, partsExist⟩ := presents.exists_subtypes wellFormed bound
    refine ⟨_, read, fun part member => ?_⟩
    obtain ⟨earlier, earlierMember, rfl⟩ := List.mem_map.mp member
    have rootExists := wellFormed.root_lt earlier (partsExist earlier earlierMember)
    rw [presents.size, presents.canonical _ rootExists, TypeGraph.root_root]
    exact ⟨rootExists, rfl⟩
  render := by
    intro id bound
    refine ⟨_, wellFormed.renderWithin_eq bound (Nat.lt_succ_self _),
      presents.renderWithin_eq wellFormed bound ?_⟩
    rw [presents.size]
    exact Nat.lt_succ_self _

namespace Source

/-- The walk through a source that can be read is finished by a table that keeps every
type of the walk. So it would be at each earlier moment, if the types that still wait for
their parents were dropped. -/
theorem tables_keep_types
    {source : Source}
    {tree : Tree}
    (made : source.tree = .ok tree)
    (addressable : tree.Addressable)
    (names : NameTable) :
    ∃ events, tree.events = .ok events ∧
      (∀ passed, passed <+: events -> ∃ inference table,
        (passed.forM (Infer.step tree names)) {} = .ok ((), inference) ∧
          { inference with operands := [] }.table = .ok table ∧
          table.Keeps inference.graph) ∧
      ∃ inference table,
        tree.inference names = .ok inference ∧ inference.table = .ok table ∧
          table.Keeps inference.graph := by
  obtain ⟨_, program, -, -, legible⟩ := exists_legible made addressable
  obtain ⟨events, walks⟩ := legible.exists_walksSafely
  refine ⟨events, walks.isWalk, fun passed isPrefix => ?_, ?_⟩
  · obtain ⟨inference, ran, sound, -⟩ := walks.infers names passed isPrefix
    have wellFormed := sound.reachable.wellFormed
    obtain ⟨table, tabled, -, -, presents⟩ :=
      @Inference.exists_table { inference with operands := [] } wellFormed rfl
    exact ⟨inference, table, ran, tabled, presents.keeps wellFormed⟩
  · obtain ⟨inference, _, inferred, reflects, -⟩ := legible.exists_inference names
    have wellFormed := reflects.captures.wellFormed
    obtain ⟨table, tabled, -, -, presents⟩ :=
      Inference.exists_table wellFormed (List.forall₂_nil_right_iff.mp reflects.operands)
    exact ⟨inference, table, inferred, tabled, presents.keeps wellFormed⟩

/-- A function whose parameter is applied to its own address. -/
def clashing : Source :=
  .ofText "fn f(x) \x7b x(&x) \x7d" none

theorem tables_keep_types_clashing :
    ∃ tree resolution names, clashing.tree = .ok tree ∧ tree.Addressable ∧
      tree.resolution = .ok resolution ∧ resolution.names tree = .ok names ∧
      ∃ events, tree.events = .ok events ∧
        (∀ passed, passed <+: events -> ∃ inference table,
          (passed.forM (Infer.step tree names)) {} = .ok ((), inference) ∧
            { inference with operands := [] }.table = .ok table ∧
            table.Keeps inference.graph) ∧
        ∃ inference table,
          tree.inference names = .ok inference ∧ inference.table = .ok table ∧
            table.Keeps inference.graph ∧
            inference.diagnostics.map Diagnostic.cause = #[.mismatch "'t2" "(FN (^ 't2) 't6)"] ∧
            table.representatives = #[0, 8, 2, 2, 2, 5, 6, 7, 8] := by
  obtain ⟨tree, made, addressable, found⟩ :
      ∃ tree, clashing.tree = .ok tree ∧ tree.Addressable ∧
        (do
          let inference <- tree.inference (<- (<- tree.resolution).names tree)
          return (inference.diagnostics.map Diagnostic.cause,
            (<- inference.table).representatives)) =
          .ok (#[.mismatch "'t2" "(FN (^ 't2) 't6)"], #[0, 8, 2, 2, 2, 5, 6, 7, 8]) := by
    refine ⟨_, by cbv, ⟨?_, ?_⟩, ?_⟩ <;> cbv
  obtain ⟨_, _, -, -, legible⟩ := exists_legible made addressable
  obtain ⟨resolution, names, resolved, named, -, -⟩ := legible.exists_names
  obtain ⟨events, walk, earlier, inference, table, inferred, tabled, keeps⟩ :=
    tables_keep_types made addressable names
  simp only [resolved, named, inferred, tabled, bind, Except.bind, pure, Except.pure,
    Except.ok.injEq, Prod.mk.injEq] at found
  exact ⟨tree, resolution, names, made, addressable, resolved, named, events, walk, earlier,
    inference, table, inferred, tabled, keeps, found.1, found.2⟩

end Source

end Frontend
