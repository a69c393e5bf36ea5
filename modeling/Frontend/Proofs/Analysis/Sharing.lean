import Frontend.Proofs.Analysis.Totality

/-!
# One type for all occurrences of a name

The first occurrence of a name that inference comes to gives the name its type. Every
later one has a new type, of which nothing is known, and this can always be made the same
as the type of the name. Sets of types are never taken apart again, whatever clashes later.
So all occurrences of a name have one type, also in a program with type errors.
-/

namespace Frontend

/-! ## Sharing during a walk -/

/-- If the node has a name and a type, then its name has the same type. -/
def Inference.SharesAt (names : NameTable) (node : NodeId) (inference : Inference) : Prop :=
  ∀ name id, names.name? node = some name -> inference.nodeTypes[node]? = some id ->
    ∃ nameType, inference.nameTypes[name]? = some nameType ∧
      inference.graph.Same id nameType

namespace Inference

variable {tree : Tree} {names : NameTable} {node other : NodeId} {before after : Inference}

/-- A move elsewhere does not touch what a node shares. -/
theorem Move.sharesAt
    (move : before.Move tree node after)
    (sound : before.Sound)
    (different : other ≠ node)
    (shares : before.SharesAt names other) :
    after.SharesAt names other := by
  have persists := move.persists sound
  intro name id isName typed
  cases move with
  | graph _ | report _ _ _ _ _ _ =>
      obtain ⟨nameType, found, same⟩ := shares name id isName typed
      exact ⟨nameType, found, persists.same _ _ same⟩
  | push _ =>
      rw [Std.TreeMap.getElem?_insert, if_neg] at typed
      · exact shares name id isName typed
      · exact fun same => different (Nat.compare_eq_eq.mp same).symm
  | bindName _ missing =>
      obtain ⟨nameType, found, same⟩ := shares name id isName typed
      refine ⟨nameType, ?_, same⟩
      rw [Std.HashMap.getElem?_insert, if_neg, found]
      intro sameName
      rw [eq_of_beq sameName, found] at missing
      cases missing
  | pop _ | openFunction _ | closeFunction => exact shares name id isName typed

end Inference

namespace Infer

variable {tree : Tree} {names : NameTable} {node other : NodeId} {before after : Inference}

/-- An identifier has the type of its name, when inference leaves it. -/
theorem sharesAt_of_identifier
    (sound : before.Sound)
    (ran : identifier tree names node before = .ok ((), after)) :
    after.SharesAt names node := by
  intro name id isName typed
  obtain ⟨own, _, made, ran⟩ := exists_of_bind ran
  cases made
  simp only [isName] at ran
  obtain ⟨_, _, read, ran⟩ := exists_of_bind ran
  cases read
  cases found : before.nameTypes[name]? with
  | some nameType =>
      obtain ⟨coarse, unified, same⟩ := sound.reachable.wellFormed.exists_unify_fresh
        (some node) (sound.nameTypes name nameType found)
      simp only [found] at ran
      obtain ⟨_, _, agreed, ran⟩ := exists_of_bind ran
      cases agreed.symm.trans (discard_eq (unifyAt_eq unified))
      cases ran
      rw [Std.TreeMap.getElem?_insert_self, Option.some.injEq] at typed
      exact ⟨nameType, found, typed ▸ same⟩
  | none =>
      simp only [found] at ran
      obtain ⟨_, _, bound, ran⟩ := exists_of_bind ran
      cases bound
      cases ran
      rw [Std.TreeMap.getElem?_insert_self, Option.some.injEq] at typed
      exact ⟨_, Std.HashMap.getElem?_insert_self, by rw [typed]; rfl⟩

/-- A step of a walk keeps it true that an identifier has the type of its name. -/
theorem sharesAt_of_step
    {event : Event}
    (isIdentifier : ∃ found, tree.nodes[other]? = some found ∧ found.tag = .identifier)
    (sound : before.Sound)
    (shares : before.SharesAt names other)
    (stepped : step tree names event before = .ok ((), after)) :
    after.SharesAt names other := by
  by_cases here : other = event.node
  · obtain ⟨found, present, tag⟩ := isIdentifier
    cases event with
    | enter node =>
        obtain rfl : other = node := here
        cases stepped.symm.trans (enter_eq present (by simp [tag]) before)
        exact shares
    | leave node =>
        obtain rfl : other = node := here
        rw [step, leave_eq present, tag] at stepped
        exact sharesAt_of_identifier sound stepped
  · exact sound.holds_of_moves
      (fun _ _ sound shares move => move.sharesAt sound here shares) shares
      (moves_of_step sound stepped)

/-- On a walk every identifier has the type of its name, wherever the walk stops. -/
theorem sharesAt_of_forM
    {events : List Event}
    (isIdentifier : ∃ found, tree.nodes[other]? = some found ∧ found.tag = .identifier)
    (sound : before.Sound)
    (shares : before.SharesAt names other)
    (walked : (events.forM (step tree names)) before = .ok ((), after)) :
    after.SharesAt names other := by
  induction events generalizing before with
  | nil =>
      cases walked
      exact shares
  | cons event events ih =>
      obtain ⟨⟨⟩, middle, stepped, walked⟩ := exists_of_bind walked
      exact ih (sound.moves (moves_of_step sound stepped)).1
        (sharesAt_of_step isIdentifier sound shares stepped) walked

end Infer

/-- Where all types of a tree are inferred, every identifier has the type of its name. -/
theorem Tree.sharesAt_of_inference
    {tree : Tree}
    {names : NameTable}
    {inference : Inference}
    (inferred : tree.inference names = .ok inference)
    {node : NodeId}
    (isIdentifier : ∃ found, tree.nodes[node]? = some found ∧ found.tag = .identifier) :
    inference.SharesAt names node := by
  obtain ⟨_, -, walked⟩ := exists_walk_of_inference inferred
  refine Infer.sharesAt_of_forM isIdentifier .empty ?_ walked
  intro name id _ typed
  simp at typed

/-! ## Sharing in the table -/

/-- A declared name has a type, which is that of the declaring node and of every node that
uses the name. -/
def Analysis.SharesType (analysis : Analysis) (declaration : NodeId) : Prop :=
  ∃ name id,
    analysis.names.name? declaration = some name ∧
      analysis.types.typeOfName? name = some id ∧
      analysis.types.typeOfNode? declaration = some id ∧
      ∀ user, (user, declaration) ∈ analysis.names.usages ->
        analysis.types.typeOfNode? user = some id

/-- In the table, an identifier has the type of its name. -/
theorem TypeTable.Presents.typeOfNode?_eq
    {table : TypeTable}
    {inference : Inference}
    {names : NameTable}
    (presents : table.Presents inference.graph)
    (sound : inference.Sound)
    (sameNodes : table.nodeTypes = inference.nodeTypes)
    (sameNames : table.nameTypes = inference.nameTypes)
    {node : NodeId}
    {name : QualifiedName}
    (shares : inference.SharesAt names node)
    (isName : names.name? node = some name)
    (typed : ∃ id, inference.nodeTypes[node]? = some id) :
    ∃ id, table.typeOfName? name = some id ∧ table.typeOfNode? node = some id := by
  obtain ⟨id, typed⟩ := typed
  obtain ⟨nameType, found, same⟩ := shares name id isName typed
  refine ⟨inference.graph.root nameType, ?_, ?_⟩
  · rw [typeOfName?, sameNames, found, Option.map_some,
      presents.canonical _ (sound.nameTypes name nameType found)]
  · rw [typeOfNode?, sameNodes, typed, Option.map_some,
      presents.canonical _ (sound.nodeTypes node id typed), same]

namespace Source

/-- The analysis of a source that can be read gives every name a type that lexical scoping
finds declared, and all its occurrences have this type, whatever is reported. -/
theorem occurrences_share_types
    {source : Source}
    {tree : Tree}
    (made : source.tree = .ok tree)
    (addressable : tree.Addressable)
    (report : Report) :
    ∃ stream program resolution analysis after,
      source.stream = .ok stream ∧ stream.Derives (program.map Mark.token) ∧
        tree.Represents program ∧ tree.resolution = .ok resolution ∧
        source.analyze report = .ok (some analysis, after) ∧ analysis.tree = tree ∧
        resolution.IsLexical tree program analysis.names ∧
        ∀ declaration ∈ analysis.names.declarations, analysis.SharesType declaration := by
  obtain ⟨stream, program, streamMade, derived, legible⟩ := exists_legible made addressable
  obtain ⟨resolution, names, resolved, named, isLexical, covers⟩ := legible.exists_names
  obtain ⟨inference, placed, inferred, reflects, typed_iff⟩ := legible.exists_inference names
  obtain ⟨types, tabled, sameNodes, sameNames, presents⟩ :=
    Inference.exists_table reflects.captures.wellFormed
      (List.forall₂_nil_right_iff.mp reflects.operands)
  have analyzed : source.analyze report = .ok (some { tree, names, types },
      (report.append resolution.diagnostics).append inference.diagnostics) := by
    simp only [Source.analyze, made, Tree.analyze, resolved, named, inferred, tabled, bind,
      Except.bind]
    rfl
  -- An identifier is typed, and so it has the type of its name.
  have occurs : ∀ node ∈ (program.findings tree.lexeme).map (·.mark.node), ∀ name,
      names.name? node = some name ->
        ∃ id, types.typeOfName? name = some id ∧ types.typeOfNode? node = some id := by
    intro node listed name isName
    have isIdentifier := (isLexical.identifiers node).mp listed
    refine presents.typeOfNode?_eq (Tree.sound_of_inference inferred) sameNodes sameNames
      (Tree.sharesAt_of_inference inferred isIdentifier) isName ((typed_iff node).mpr ?_)
    obtain ⟨found, present, tag⟩ := isIdentifier
    exact Tree.isTyped_of_tag present (by rw [tag]; rfl)
  refine ⟨stream, program, resolution, { tree, names, types }, _, streamMade, derived,
    legible.represents, resolved, analyzed, rfl, isLexical, fun declaration declared => ?_⟩
  rw [← Array.mem_toList_iff, covers.declarations] at declared
  obtain ⟨scopes, lexeme, isName⟩ := covers.declaredName declaration declared
  obtain ⟨id, nameTyped, nodeTyped⟩ :=
    occurs declaration (Finding.declared_subset _ declared) _ isName
  refine ⟨_, id, isName, nameTyped, nodeTyped, fun user used => ?_⟩
  rw [← Array.mem_toList_iff, covers.usages] at used
  have userListed := Finding.users_subset _ (List.mem_map_of_mem used)
  obtain ⟨_, sameNameTyped, userTyped⟩ :=
    occurs user userListed _ ((covers.usedName _ used).trans isName)
  exact userTyped.trans (sameNameTyped.symm.trans nameTyped)

/-- A number is given the address of itself. -/
def selfPointing : Source :=
  .ofText "var p = 1\np = &p" none

theorem occurrences_share_types_selfPointing :
    ∃ tree analysis after, selfPointing.tree = .ok tree ∧ tree.Addressable ∧
      selfPointing.analyze (.empty 10) = .ok (some analysis, after) ∧ analysis.tree = tree ∧
      after.diagnostics.map (·.cause) = #[.mismatch "int" "(^ int)"] ∧
      analysis.names.declarations = #[1] ∧ analysis.names.usages = #[(5, 1), (7, 1)] ∧
      ∀ declaration ∈ analysis.names.declarations, analysis.SharesType declaration := by
  obtain ⟨tree, made, addressable⟩ : ∃ tree, selfPointing.tree = .ok tree ∧ tree.Addressable := by
    refine ⟨_, by cbv, ?_, ?_⟩ <;> cbv
  have found : (selfPointing.analyze (.empty 10)).map (fun result =>
      (result.2.diagnostics.map (·.cause),
        result.1.map fun analysis => (analysis.names.declarations, analysis.names.usages))) =
        .ok (#[.mismatch "int" "(^ int)"], some (#[1], #[(5, 1), (7, 1)])) := by cbv
  obtain ⟨_, _, _, analysis, after, -, -, -, -, analyzed, sameTree, -, share⟩ :=
    occurrences_share_types made addressable (.empty 10)
  simp only [analyzed, Except.map, Except.ok.injEq, Prod.mk.injEq, Option.map_some,
    Option.some.injEq] at found
  obtain ⟨causes, declarations, usages⟩ := found
  exact ⟨tree, analysis, after, made, addressable, analyzed, sameTree, causes, declarations,
    usages, share⟩

end Source

end Frontend
