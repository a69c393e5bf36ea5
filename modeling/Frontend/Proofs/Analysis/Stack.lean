import Frontend.Proofs.Analysis.Totality
import Frontend.Proofs.Types.Balance

/-!
# Types on the stack

Wherever the walk for the types of a source starts, and whatever state it starts in, it
leaves the stack as it was, with one more type if the node has one. Every value that is
returned is unified with the result of the innermost function around the return.
-/

namespace Frontend

namespace Infer

variable {tree : Tree} {names : NameTable}

/-- What is said of a walk from a node, with the state before it. -/
structure IsBalanced
    (tree : Tree)
    (names : NameTable)
    (node : NodeId)
    (tag : Tag)
    (events : List Event)
    (before : Inference) : Prop where
  /-- The walk adds the type of the node to the stack, if it has one, and closes all functions
  that it has opened. -/
  ended : ∃ (own : Option TypeId) (after : Inference),
    (events.forM (step tree names)) before = .ok ((), after) ∧
      own.isSome = tag.isTyped ∧ after.operands = own.toList ++ before.operands ∧
      after.results = before.results
  /-- The type of a value that is returned is unified with the result of the function. Then
  the two are one type, or their clash is reported at the return. -/
  returned : ∀ passed returning rest value,
    events = passed ++ .leave returning :: rest -> tree.tag? returning = some .return ->
      tree.returnValue returning = .ok (some value) ->
        ∃ (state : Inference) (id result : TypeId) (waiting : List TypeId),
          (passed.forM (step tree names)) before = .ok ((), state) ∧
            state.operands = id :: waiting ∧ state.nodeTypes[value]? = some id ∧
            IsResultAround tree names node before passed returning result ∧
            step tree names (.leave returning) state =
              discard (unifyAt tree returning id result) { state with operands := waiting } ∧
            ∃ agreed after,
              unifyAt tree returning id result { state with operands := waiting } =
                .ok (agreed, after) ∧
              tree.Reports returning state.diagnostics agreed after.diagnostics ∧
              (agreed = true -> after.graph.Same id result)

/-- The result that the walk has at hand at a node is that of the function around it. -/
theorem Gets.exists_result
    {outer node : NodeId}
    {before : Inference}
    {passed : List Event}
    {results : List TypeId}
    (gets : Gets tree names outer before passed node results)
    (rooted : tree.Rooted)
    (around : ∃ function, tree.IsFunctionAround function node)
    (opened : (∃ function, tree.tag? function = some .function ∧ tree.IsBelow function outer) ->
      before.results ≠ [])
    (more : List Event) :
    ∃ result, results.head? = some result ∧
      IsResultAround tree names outer before (passed ++ more) node result := by
  cases gets with
  | loose loose same =>
      obtain ⟨function, around⟩ := around
      have outside := around.of_isLoose rooted.unique loose
      obtain ⟨result, others, found⟩ :=
        List.exists_cons_of_ne_nil (opened ⟨function, outside.1, outside.isBelow⟩)
      exact ⟨result, by rw [same, found, List.head?_cons],
        .outer around outside (by rw [found, List.head?_cons])⟩
  | @inside function earlier inner entering around found entered latest =>
      have longer : passed ++ more = earlier ++ .enter function :: (inner ++ more) := by
        rw [found, List.append_assoc, List.cons_append]
      exact ⟨_, by rw [latest, List.head?_cons], .entered around longer entered⟩

/-- The walk through a part is balanced. -/
theorem isBalanced_of_part
    {program : Program Mark}
    {stream : Stream}
    {part : Outline Mark}
    {before : Inference}
    (legible : tree.Legible program)
    (derived : stream.Derives (program.map Mark.token))
    (isPart : part ∈ program.outline.parts)
    (names : NameTable)
    (sound : before.Sound)
    (opened : (∃ function, tree.tag? function = some .function ∧
      tree.IsBelow function part.label.node) -> before.results ≠ []) :
    IsBalanced tree names part.label.node part.tag part.events before := by
  have stands : ∀ lower ∈ part.parts, lower.Stands tree := fun lower isLower =>
    legible.stands lower (Outline.parts_subset isPart isLower)
  constructor
  case ended =>
    obtain ⟨own, after, ran, isTyped, walked, -⟩ := Outline.walks names stands before sound
    exact ⟨own, after, ran, isTyped, walked.operands, walked.results⟩
  case returned =>
    intro passed returning rest value split isReturn valueRead
    obtain ⟨earlier, lower, reaches, ⟨entering, -⟩ | ⟨leaving, rfl⟩⟩ :=
      Outline.exists_reaches split
    · cases entering
    · cases leaving
      have lowerStands := stands lower reaches.mem_parts
      have tagged : lower.tag = .return := by
        simpa [lowerStands.tag?_eq] using isReturn
      obtain ⟨state, id, waiting, ran, stacked, typed, gets⟩ :=
        reaches.exists_value stands names sound tagged valueRead
      obtain ⟨result, latest, isResult⟩ :=
        gets.exists_result (legible.represents.rooted legible.small)
          (legible.represents.exists_function_around derived isReturn) opened
          (.enter lower.label.node :: (lower.children.map Outline.events).flatten)
      obtain ⟨left, right, present⟩ := lowerStands.present
      have stateSound := holds_of_forM (fun _ _ _ sound _ move => sound.move move) sound sound ran
      obtain ⟨agreed, graph, diagnostics, unified, reports, -, -, joins⟩ :=
        exists_unifyAt_or_reports { state with operands := waiting }
          stateSound.1.reachable.wellFormed (stateSound.1.operands id (by simp [stacked]))
          (stateSound.1.results result (List.mem_of_mem_head? latest))
          (lowerStands.located.exists_location present)
      refine ⟨state, id, result, waiting, ran, stacked, typed, isResult, ?_, agreed, _, unified,
        reports, joins⟩
      rw [step, leave_eq present, tagged]
      exact returnStatement_eq valueRead stacked latest

end Infer

/-- The nodes to which a table gives a type. -/
theorem TypeTable.mem_typedNodes {table : TypeTable} {node : NodeId} :
    node ∈ table.typedNodes ↔ ∃ id, table.nodeTypes[node]? = some id := by
  rw [typedNodes, Std.TreeMap.mem_keys, Std.TreeMap.mem_iff_isSome_getElem?,
    Option.isSome_iff_exists]

namespace Source

/-- The inference of types for a source that can be read is a balanced stack machine, from
every node and from every sound state with a result at hand for the functions around. The
nodes that get a type are the identifiers, literals, operators, calls and expressions. -/
theorem inference_is_balanced
    {source : Source}
    {tree : Tree}
    (made : source.tree = .ok tree)
    (addressable : tree.Addressable) :
    (∀ (names : NameTable) (node : NodeId) (found : Node), tree.nodes[node]? = some found ->
      ∃ events, tree.eventsFrom node = .ok events ∧
        ∀ before : Inference, before.Sound ->
          ((∃ function, tree.tag? function = some .function ∧ tree.IsBelow function node) ->
            before.results ≠ []) ->
              Infer.IsBalanced tree names node found.tag events before) ∧
    ∀ report, ∃ analysis after,
      source.analyze report = .ok (some analysis, after) ∧ analysis.tree = tree ∧
        ∀ node, node ∈ analysis.types.typedNodes ↔ tree.IsTyped node := by
  obtain ⟨stream, program, -, derived, legible⟩ := exists_legible made addressable
  constructor
  · intro names node found present
    obtain ⟨part, isPart, -, rfl, sameTag, -⟩ := legible.represents.exists_isHeld present
    refine ⟨part.events, legible.represents.eventsFrom_eq legible.small isPart, ?_⟩
    intro before sound opened
    exact sameTag ▸ Infer.isBalanced_of_part legible derived isPart names sound opened
  · intro report
    obtain ⟨resolution, names, resolved, named, -, -⟩ := legible.exists_names
    obtain ⟨inference, placed, inferred, reflects, typed_iff⟩ := legible.exists_inference names
    obtain ⟨types, tabled, sameNodes, -, -⟩ :=
      Inference.exists_table reflects.captures.wellFormed
        (List.forall₂_nil_right_iff.mp reflects.operands)
    refine ⟨{ tree, names, types },
      (report.append resolution.diagnostics).append inference.diagnostics, ?_, rfl, fun node => ?_⟩
    · simp only [Source.analyze, made, Tree.analyze, resolved, named, inferred, tabled, bind,
        Except.bind]
      rfl
    · rw [TypeTable.mem_typedNodes, sameNodes, typed_iff]

/-- A function inside of another one, both with a return. -/
def nestedReturns : Source :=
  .ofText "fn f() \x7bfn g(a) \x7breturn a\x7d return 1\x7d" none

/-- A walk through the body of the outer function, with a type on the stack and its result at
hand. -/
theorem inference_is_balanced_nestedReturns :
    ∃ (tree : Tree) (found : Node) (before : Inference),
      nestedReturns.tree = .ok tree ∧ tree.Addressable ∧
        tree.nodes[12]? = some found ∧ found.tag = .block ∧ before.Sound ∧
        before.operands = [0] ∧ before.results = [0] ∧
        (∃ events, tree.eventsFrom 12 = .ok events ∧
          Infer.IsBalanced tree {} 12 .block events before) ∧
        ∃ analysis after,
          nestedReturns.analyze (.empty 10) = .ok (some analysis, after) ∧ analysis.tree = tree ∧
            ∀ node, node ∈ analysis.types.typedNodes ↔ tree.IsTyped node := by
  have parsed : ∃ tree found, nestedReturns.tree = .ok tree ∧ tree.Addressable ∧
      tree.nodes[12]? = some found ∧ found.tag = .block := by
    refine ⟨_, _, by cbv, ⟨?_, ?_⟩, by cbv, rfl⟩ <;> cbv
  let before : Inference :=
    { graph := (({} : TypeGraph).fresh none).2, operands := [0], results := [0] }
  have sound : before.Sound :=
    { reachable := .single (.fresh none)
      operands := by decide
      results := by decide
      nameTypes := by simp [before]
      nodeTypes := by simp [before]
      mismatches := by simp [before] }
  obtain ⟨tree, found, made, addressable, present, isBlock⟩ := parsed
  obtain ⟨balanced, typed⟩ := inference_is_balanced made addressable
  obtain ⟨events, walk, isBalanced⟩ := balanced {} 12 found present
  refine ⟨tree, found, before, made, addressable, present, isBlock, sound, rfl, rfl, ?_,
    typed (.empty 10)⟩
  exact ⟨events, walk, isBlock ▸ isBalanced before sound (by simp [before])⟩

end Source

end Frontend
