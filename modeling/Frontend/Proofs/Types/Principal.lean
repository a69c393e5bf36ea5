import Frontend.Proofs.Scope.Naming
import Frontend.Proofs.Types.Walking

/-!
# Principal types

The walk through a program demands its typing rules, where all occurrences of a name
have one tree. Names only tie usages to their declarations. So nothing is reported if
and only if the program has a typing, and then its typings are the instances of the
types that were found.
-/

namespace Frontend

variable {Var : Type}

/-! ## The walk through a program -/

/-- The trees of a program obey the rules, and its identifiers have the trees of their
names. -/
def Program.Requires (names : NameTable) (program : Program Mark) : Requirement :=
  fun Var assignment => ∀ statement ∈ program.statements,
    statement.Requires names none Var assignment

/-- Inference on a legible tree demands the rules for its program, and gives types to just
the nodes that have one. -/
theorem Tree.Legible.exists_inference
    {tree : Tree}
    {program : Program Mark}
    (legible : tree.Legible program)
    (names : NameTable) :
    ∃ inference placed,
      tree.inference names = .ok inference ∧
        inference.Reflects placed [] [] (program.Requires names) ∧
        ∀ node, (∃ id, inference.nodeTypes[node]? = some id) ↔ tree.IsTyped node := by
  obtain ⟨first, present, -⟩ := legible.represents.held.exists_run
  have demands : ((program.statements.map Statement.events).flatten.forM
      (Infer.step tree names)).Demands tree (root + 1) tree.nodes.size [] [] []
        (program.Requires names) := by
    refine Statement.demands_flatten legible.represents.numbered
      (fun mark member => legible.located mark (List.mem_cons_of_mem _ member))
      fun statement member {start stop} located numbered => ?_
    exact (legible.represents.held.statementsHeld statement member).demands legible.small
      located numbered []
  obtain ⟨inference, placed, ran, reflects, fills⟩ :=
    demands {} [] [] (fun _ _ => True) .empty (by simp [Avoids])
  rw [List.append_nil] at reflects
  have walked : (program.events.forM (Infer.step tree names)) {} = .ok ((), inference) := by
    rw [Program.events, Infer.forM_around, Infer.bind_enter_eq present (by simp),
      Infer.bind_eq ran, Infer.leave_eq present]
    rfl
  refine ⟨inference, placed, ?_, reflects.congr (by simp), fun node => ?_⟩
  · rw [Tree.inference, legible.represents.events legible.small]
    simp only [bind, Except.bind, StateT.run, walked]
    rfl
  · simp only [reflects.nodes]
    by_cases inside : root + 1 ≤ node ∧ node < tree.nodes.size
    · exact fills.typed node inside.1 inside.2
    · refine iff_of_false ?_ ?_
      · rintro ⟨id, member⟩
        exact inside (fills.confined _ member node rfl)
      · -- The only node before the numbers of the statements is the root.
        rintro ⟨found, nodePresent, typed⟩
        have below := (Array.getElem?_eq_some_iff.mp nodePresent).1
        have isRoot : node = program.label.node := by
          rw [legible.represents.held.root]
          have above : ¬ root + 1 ≤ node := fun above => inside ⟨above, below⟩
          exact Nat.le_zero.mp (Nat.le_of_lt_succ (Nat.lt_of_not_le above))
        rw [isRoot] at nodePresent
        exact not_isTyped_of_tag present rfl ⟨found, nodePresent, typed⟩

/-! ## Names and declarations -/

/-- The first of the declarations that has a name. -/
def NameTable.declaring? (names : NameTable) (declared : List NodeId) (name : QualifiedName) :
    Option NodeId :=
  declared.find? fun node => names.name? node == some name

namespace NameTable.Covers

variable
  {names : NameTable}
  {declared : List NodeId}
  {used : List (NodeId × NodeId)}

/-- Only declarations and usages have names. -/
theorem mem_of_name?
    (covers : names.Covers declared used)
    {node : NodeId}
    {name : QualifiedName}
    (named : names.name? node = some name) :
    node ∈ declared ∨ node ∈ used.map Prod.fst := by
  by_contra neither
  rw [not_or] at neither
  rw [covers.unnamed node neither.1 neither.2] at named
  cases named

/-- Different declarations have different names. -/
theorem eq_of_name?_eq
    (covers : names.Covers declared used)
    {node other : NodeId}
    (member : node ∈ declared)
    (otherMember : other ∈ declared)
    (same : names.name? node = names.name? other) :
    node = other := by
  obtain ⟨scopes, lexeme, named⟩ := covers.declaredName node member
  obtain ⟨otherScopes, otherLexeme, otherNamed⟩ := covers.declaredName other otherMember
  rw [named, otherNamed, Option.some.injEq] at same
  exact QualifiedName.ofParts_injective same

/-- The declaration that has a name. -/
theorem exists_declaration
    (covers : names.Covers declared used)
    {node : NodeId}
    {name : QualifiedName}
    (named : names.name? node = some name) :
    ∃ declaration ∈ declared, names.name? declaration = some name ∧
      (node = declaration ∨ (node, declaration) ∈ used) := by
  rcases covers.mem_of_name? named with member | member
  · exact ⟨node, member, named, .inl rfl⟩
  · obtain ⟨⟨user, declaration⟩, listed, rfl⟩ := List.mem_map.mp member
    refine ⟨declaration, covers.referred _ listed, ?_, .inr listed⟩
    rw [← covers.usedName _ listed]
    exact named

/-- A name leads back to its declaration. -/
theorem declaring?_eq
    (covers : names.Covers declared used)
    {declaration : NodeId}
    {name : QualifiedName}
    (member : declaration ∈ declared)
    (named : names.name? declaration = some name) :
    names.declaring? declared name = some declaration := by
  rw [declaring?]
  cases chosen : declared.find? fun node => names.name? node == some name with
  | none =>
      have unnamed := List.find?_eq_none.mp chosen declaration member
      simp [named] at unnamed
  | some other =>
      have otherNamed : names.name? other = some name := by
        simpa using List.find?_some chosen
      rw [covers.eq_of_name?_eq (List.mem_of_find?_eq_some chosen) member
        (otherNamed.trans named.symm)]

/-- Trees can be given to the names if every usage has the tree of its declaration. -/
theorem exists_trees_iff
    (covers : names.Covers declared used)
    (types : NodeId -> TypeTree Var) :
    (∃ trees : QualifiedName -> TypeTree Var,
        ∀ node, ∀ name ∈ names.name? node, types node = trees name) ↔
      ∀ pair ∈ used, types pair.1 = types pair.2 := by
  constructor
  · rintro ⟨trees, shared⟩ pair member
    obtain ⟨scopes, lexeme, named⟩ :=
      covers.declaredName pair.2 (covers.referred pair member)
    have userNamed := (covers.usedName pair member).trans named
    rw [shared pair.1 _ userNamed, shared pair.2 _ named]
  · intro shared
    refine ⟨fun name => ((names.declaring? declared name).map types).getD (.base .int),
      fun node name named => ?_⟩
    obtain ⟨declaration, member, declarationNamed, same⟩ := covers.exists_declaration named
    simp only [covers.declaring?_eq member declarationNamed, Option.map_some, Option.getD_some]
    rcases same with rfl | isUsage
    · rfl
    · exact shared _ isUsage

end NameTable.Covers

/-! ## Typings and demands -/

/-- The trees of all slots, from those of the nodes, the results and the names. -/
def Slot.tree
    (types results : NodeId -> TypeTree Var)
    (trees : QualifiedName -> TypeTree Var) : Slot -> TypeTree Var
  | .node id => types id
  | .result function => results function
  | .name qualified => trees qualified

section Typings

variable
  {names : NameTable}
  {program : Program Mark}
  {lexeme : Mark -> String}
  (covers : names.Covers ((program.findings lexeme).filterMap Finding.declared?)
    ((program.findings lexeme).filterMap Finding.usage?))

include covers

/-- Every node that has a name is an identifier of the program. -/
theorem NameTable.Covers.exists_identifier
    {node : NodeId}
    {name : QualifiedName}
    (named : names.name? node = some name) :
    ∃ statement ∈ program.statements, ∃ mark ∈ statement.identifiers, mark.node = node := by
  have occurs : node ∈ (program.findings lexeme).map (·.mark.node) := by
    rcases covers.mem_of_name? named with member | member
    · exact Finding.declared_subset _ member
    · exact Finding.users_subset _ member
  obtain ⟨finding, listed, rfl⟩ := List.mem_map.mp occurs
  have marked : finding.mark ∈ (program.findings lexeme).map Finding.mark :=
    List.mem_map_of_mem listed
  rw [program.map_mark_findings] at marked
  obtain ⟨_, isIdentifiers, member⟩ := List.mem_flatten.mp marked
  obtain ⟨statement, statementMember, rfl⟩ := List.mem_map.mp isIdentifiers
  exact ⟨statement, statementMember, finding.mark, member, rfl⟩

/-- The demands of a program are its rules, and that each name has a tree of its own. -/
theorem Program.requires_iff (assignment : Slot -> TypeTree Var) :
    program.Requires names Var assignment ↔
      (∀ statement ∈ program.statements,
        statement.Typed (fun node => assignment (.node node))
          (fun function => assignment (.result function)) none) ∧
        ∀ node, names.Shares node Var assignment := by
  simp only [Requires, Statement.Requires, forall_and]
  refine and_congr_right fun _ => ⟨fun shared node name named => ?_, fun shared => ?_⟩
  · obtain ⟨statement, member, mark, isIdentifier, rfl⟩ := covers.exists_identifier named
    exact shared statement member mark isIdentifier name named
  · intro statement member mark isIdentifier
    exact shared mark.node

/-- A program has a typing if trees for the names can be found that meet its demands. -/
theorem Program.typed_iff (types results : NodeId -> TypeTree Var) :
    program.Typed types results ((program.findings lexeme).filterMap Finding.usage?) ↔
      ∃ trees, program.Requires names Var (Slot.tree types results trees) := by
  simp only [Program.requires_iff covers, NameTable.Shares, Slot.tree, exists_and_left,
    covers.exists_trees_iff types]
  exact ⟨fun typed => ⟨typed.statements, typed.shared⟩, fun typed => ⟨typed.1, typed.2⟩⟩

end Typings

/-! ## Solutions -/

/-- Trees of types are trees of the slots that the types stand for. -/
theorem exists_fits
    {placed : List (Slot × TypeId)}
    (distinct : (placed.map Prod.fst).Nodup)
    (trees : TypeId -> TypeTree Var) :
    ∃ assignment : Slot -> TypeTree Var,
      ∀ pair ∈ placed, trees pair.2 = assignment pair.1 := by
  induction placed with
  | nil => exact ⟨fun _ => .base .int, by simp⟩
  | cons first placed ih =>
      rw [List.map_cons, List.nodup_cons] at distinct
      obtain ⟨assignment, fits⟩ := ih distinct.2
      refine ⟨Function.update assignment first.1 (trees first.2), ?_⟩
      rw [List.forall_mem_cons]
      refine ⟨by simp, fun pair member => ?_⟩
      have different : pair.1 ≠ first.1 :=
        fun same => distinct.1 (same ▸ List.mem_map_of_mem member)
      rw [Function.update_of_ne different]
      exact fits pair member

/-- The solutions of a well-formed graph are the instances of one of them. -/
theorem TypeGraph.WellFormed.solves_iff
    {graph : TypeGraph}
    (wellFormed : graph.WellFormed)
    (trees : TypeId -> TypeTree Var) :
    graph.Solves trees ↔
      ∃ values : TypeId -> TypeTree Var, ∀ id, trees id = (graph.tree .var id).subst values := by
  have instance_eq : ∀ values : TypeId -> TypeTree Var,
      (fun id => (graph.tree .var id).subst values) = graph.tree values := by
    intro values
    funext id
    rw [TypeGraph.tree, TypeGraph.tree, Repository.tree, Repository.subst_treeWithin]
    simp only [TypeTree.subst]
    rfl
  constructor
  · intro solves
    refine ⟨trees, fun id => ?_⟩
    rw [← congrFun (instance_eq trees).symm id]
    exact congrFun (solves.eq_tree wellFormed) id
  · rintro ⟨values, same⟩
    rw [funext same, instance_eq]
    exact wellFormed.solves_tree values

/-- The representative of a type has its tree. -/
theorem TypeTable.Presents.tree_canonical
    {table : TypeTable}
    {graph : TypeGraph}
    (presents : table.Presents graph)
    (wellFormed : graph.WellFormed)
    (values : TypeId -> TypeTree Var)
    {id : TypeId}
    (bound : id < graph.repository.size) :
    table.tree values (table.canonical id) = graph.tree values id := by
  rw [presents.canonical id bound, presents.tree_eq wellFormed values (wellFormed.root_lt id bound)]
  exact (wellFormed.solves_tree values).root id

namespace Inference.Reflects

variable
  {inference : Inference}
  {placed : List (Slot × TypeId)}
  {names : NameTable}
  {program : Program Mark}
  {lexeme : Mark -> String}
  (reflects : inference.Reflects placed [] [] (program.Requires names))
  (covers : names.Covers ((program.findings lexeme).filterMap Finding.declared?)
    ((program.findings lexeme).filterMap Finding.usage?))

include reflects covers

/-- The trees of the nodes in a typing are those in a solution of the graph. -/
theorem exists_typed_iff (types : NodeId -> TypeTree Var) :
    (∃ results,
        program.Typed types results ((program.findings lexeme).filterMap Finding.usage?)) ↔
      inference.diagnostics = #[] ∧
        ∃ trees, inference.graph.Solves trees ∧
          ∀ node id, inference.nodeTypes[node]? = some id -> types node = trees id := by
  simp only [Program.typed_iff covers, reflects.captures.required]
  constructor
  · rintro ⟨results, nameTrees, quiet, trees, models⟩
    refine ⟨quiet, trees, models.solves, fun node id found => ?_⟩
    rw [models.fits _ ((reflects.nodes node id).mp found), Slot.tree]
  · rintro ⟨quiet, trees, solves, agree⟩
    obtain ⟨assignment, fits⟩ := exists_fits reflects.distinct trees
    refine ⟨fun function => assignment (.result function),
      fun name => assignment (.name name), quiet, trees, solves, ?_⟩
    rintro ⟨slot, id⟩ member
    cases slot with
    | node node => exact (agree node id ((reflects.nodes node id).mpr member)).symm
    | result function => exact fits _ member
    | name name => exact fits _ member

/-- Nothing is reported just if the program has a typing. -/
theorem diagnostics_eq_empty_iff (Leaf : Type) :
    inference.diagnostics = #[] ↔
      ∃ types results : NodeId -> TypeTree Leaf,
        program.Typed types results ((program.findings lexeme).filterMap Finding.usage?) := by
  constructor
  · intro quiet
    obtain ⟨trees, solves⟩ := reflects.captures.wellFormed.exists_solves Leaf
    obtain ⟨assignment, fits⟩ := exists_fits reflects.distinct trees
    refine ⟨fun node => assignment (.node node), ?_⟩
    rw [reflects.exists_typed_iff covers]
    refine ⟨quiet, trees, solves, fun node id found => ?_⟩
    exact (fits _ ((reflects.nodes node id).mp found)).symm
  · rintro ⟨types, typed⟩
    exact ((reflects.exists_typed_iff covers types).mp typed).1

/-- The trees of the nodes in a typing are instances of those in the table. -/
theorem exists_typed_iff_instance
    {table : TypeTable}
    (sameNodes : table.nodeTypes = inference.nodeTypes)
    (presents : table.Presents inference.graph)
    (quiet : inference.diagnostics = #[])
    (types : NodeId -> TypeTree Var) :
    (∃ results,
        program.Typed types results ((program.findings lexeme).filterMap Finding.usage?)) ↔
      ∃ values : TypeId -> TypeTree Var, ∀ node id, table.typeOfNode? node = some id ->
        types node = (table.tree .var id).subst values := by
  have wellFormed := reflects.captures.wellFormed
  have tree_eq : ∀ (node : NodeId) (id : TypeId), inference.nodeTypes[node]? = some id ->
      table.tree .var (table.canonical id) = inference.graph.tree .var id := by
    intro node id found
    have bound := reflects.captures.lt_size _ ((reflects.nodes node id).mp found)
    exact presents.tree_canonical wellFormed .var bound
  rw [reflects.exists_typed_iff covers]
  simp only [quiet, true_and, wellFormed.solves_iff, TypeTable.typeOfNode?, sameNodes,
    Option.map_eq_some_iff]
  constructor
  · rintro ⟨trees, ⟨values, same⟩, agree⟩
    refine ⟨values, ?_⟩
    rintro node _ ⟨id, found, rfl⟩
    rw [tree_eq node id found, ← same, agree node id found]
  · rintro ⟨values, agree⟩
    refine ⟨_, ⟨values, fun _ => rfl⟩, fun node id found => ?_⟩
    rw [agree node _ ⟨id, found, rfl⟩, tree_eq node id found]

end Inference.Reflects

/-! ## The analysis of a source -/

/-- Every node that is to have a type has one. No mismatch is reported just if the
program has a typing, whatever the leaves of its trees are. Its typings are then the
instances of the types found. -/
structure Analysis.IsPrincipal
    (program : Program Mark)
    (report : Report)
    (analysis : Analysis) : Prop where
  usages : analysis.names.usages.toList =
    (program.findings analysis.tree.lexeme).filterMap Finding.usage?
  typed : ∀ node,
    (∃ id, analysis.types.typeOfNode? node = some id) ↔ analysis.tree.IsTyped node
  accepted : ∀ Var : Type,
    (∀ diagnostic ∈ report.diagnostics, ¬ diagnostic.IsMismatch) ↔
      ∃ types results : NodeId -> TypeTree Var,
        program.Typed types results analysis.names.usages.toList
  instances : (∀ diagnostic ∈ report.diagnostics, ¬ diagnostic.IsMismatch) ->
    ∀ (Var : Type) (types : NodeId -> TypeTree Var),
      (∃ results, program.Typed types results analysis.names.usages.toList) ↔
        ∃ values : TypeId -> TypeTree Var,
          ∀ node id, analysis.types.typeOfNode? node = some id ->
            types node = (analysis.types.tree .var id).subst values

/-- Names are not reported as mismatches. -/
theorem Resolution.IsLexical.not_isMismatch
    {tree : Tree}
    {program : Program Mark}
    {resolution : Resolution}
    {names : NameTable}
    (isLexical : resolution.IsLexical tree program names) :
    ∀ diagnostic ∈ resolution.diagnostics, ¬ diagnostic.IsMismatch := by
  rintro diagnostic member ⟨left, right, cause⟩
  rw [← Array.mem_toList_iff, isLexical.diagnostics] at member
  obtain ⟨finding, -, found⟩ := List.mem_filterMap.mp member
  rcases (Finding.of_diagnostic? found).2 with undeclared | redeclared
  · rw [undeclared] at cause
    cases cause
  · rw [redeclared] at cause
    cases cause

/-- If only the later diagnostics are mismatches, there is no mismatch just if there are
no later diagnostics. -/
theorem Report.forall_not_isMismatch_iff
    {earlier later : Array Diagnostic}
    (limit : Nat)
    (others : ∀ diagnostic ∈ earlier, ¬ diagnostic.IsMismatch)
    (mismatches : ∀ diagnostic ∈ later, diagnostic.IsMismatch) :
    (∀ diagnostic ∈ (((Report.empty limit).append earlier).append later).diagnostics,
        ¬ diagnostic.IsMismatch) ↔
      later = #[] := by
  simp only [append, empty, Array.mem_append, Array.not_mem_empty, false_or]
  constructor
  · intro none
    rw [Array.eq_empty_iff_forall_not_mem]
    intro diagnostic member
    exact none diagnostic (.inr member) (mismatches diagnostic member)
  · rintro quiet diagnostic (member | member)
    · exact others diagnostic member
    · simp [quiet] at member

/-- The analysis of a legible tree finds principal types. -/
theorem Tree.Legible.exists_analysis
    {tree : Tree}
    {program : Program Mark}
    (legible : tree.Legible program)
    (limit : Nat) :
    ∃ analysis report, tree.analyze (.empty limit) = .ok (analysis, report) ∧
      analysis.tree = tree ∧ analysis.IsPrincipal program report := by
  obtain ⟨resolution, names, resolved, named, isLexical, covers⟩ := legible.exists_names
  obtain ⟨inference, placed, inferred, reflects, filled⟩ := legible.exists_inference names
  have finished : inference.operands = [] := List.forall₂_nil_right_iff.mp reflects.operands
  obtain ⟨types, tabled, sameNodes, -, presents⟩ :=
    Inference.exists_table reflects.captures.wellFormed finished
  have reported := Report.forall_not_isMismatch_iff limit isLexical.not_isMismatch
    reflects.captures.mismatches
  refine ⟨{ tree, names, types },
    ((Report.empty limit).append resolution.diagnostics).append inference.diagnostics,
    ?_, rfl, isLexical.usages, ?_, ?_, ?_⟩
  · simp only [Tree.analyze, resolved, named, inferred, tabled, bind, Except.bind]
    rfl
  · intro node
    rw [← filled node, TypeTable.typeOfNode?, sameNodes]
    simp [Option.map_eq_some_iff]
  · intro Leaf
    rw [reported, isLexical.usages]
    exact reflects.diagnostics_eq_empty_iff covers Leaf
  · intro none Leaf types
    rw [isLexical.usages]
    exact reflects.exists_typed_iff_instance covers sameNodes presents (reported.mp none) types

/-- The types of a source that can be read are sound, complete and principal. -/
theorem Source.types_are_principal
    {source : Source}
    {tree : Tree}
    (made : source.tree = .ok tree)
    (addressable : tree.Addressable)
    (limit : Nat) :
    ∃ stream program analysis report,
      source.stream = .ok stream ∧ stream.Derives (program.map Mark.token) ∧
        tree.Represents program ∧
        source.analyze (.empty limit) = .ok (some analysis, report) ∧
        analysis.tree = tree ∧ analysis.IsPrincipal program report := by
  obtain ⟨stream, program, streamMade, derived, legible⟩ :=
    exists_legible made addressable
  obtain ⟨analysis, report, analyzed, sameTree, isPrincipal⟩ := legible.exists_analysis limit
  refine ⟨stream, program, analysis, report, streamMade, derived, legible.represents, ?_,
    sameTree, isPrincipal⟩
  simp only [Source.analyze, made, analyzed, bind, Except.bind]
  rfl

/-- A function that takes a pointer to a number, and whose result may have any type. -/
def Source.storing : Source :=
  .ofText "fn f(p) \x7b *p = 1 \x7d" none

theorem Source.types_are_principal_storing :
    ∃ tree, storing.tree = .ok tree ∧ tree.Addressable ∧
      ∃ stream program analysis report,
        storing.stream = .ok stream ∧ stream.Derives (program.map Mark.token) ∧
          tree.Represents program ∧
          storing.analyze (.empty 10) = .ok (some analysis, report) ∧
          analysis.tree = tree ∧ analysis.IsPrincipal program report ∧
          report.diagnostics = #[] ∧
          Analysis.nameTypes analysis.names analysis.types =
            .ok [(⟨"0::f#1"⟩, some "(FN (^ int) 't0)"), (⟨"0::10::p#2"⟩, some "(^ int)")] := by
  obtain ⟨tree, made, addressable⟩ : ∃ tree, storing.tree = .ok tree ∧ tree.Addressable := by
    refine ⟨_, by cbv, ?_, ?_⟩ <;> cbv
  have found : (storing.analyze (.empty 10)).map (fun result => (result.2.diagnostics,
      result.1.map fun analysis => Analysis.nameTypes analysis.names analysis.types)) =
        .ok (#[], some (.ok [(⟨"0::f#1"⟩, some "(FN (^ int) 't0)"),
          (⟨"0::10::p#2"⟩, some "(^ int)")])) := by cbv
  obtain ⟨stream, program, analysis, report, streamMade, derived, represents, analyzed,
    sameTree, isPrincipal⟩ := types_are_principal made addressable 10
  simp only [analyzed, Except.map, Except.ok.injEq, Prod.mk.injEq, Option.map_some,
    Option.some.injEq] at found
  exact ⟨tree, made, addressable, stream, program, analysis, report, streamMade, derived,
    represents, analyzed, sameTree, isPrincipal, found.1, found.2⟩

end Frontend
