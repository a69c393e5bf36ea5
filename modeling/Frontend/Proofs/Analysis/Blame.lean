import Frontend.Proofs.Analysis.Stack
import Frontend.Proofs.Grammar.WellFormed

/-!
# Who is to blame for a clash

Every clash of types is reported on leaving a node, and no node is left twice. So each node
is blamed for at most one clash, which is located at its main token. The outcomes that
inference throws away hide nothing, since they are never clashes.
-/

namespace Frontend

namespace Infer

variable
  {tree : Tree}
  {names : NameTable}
  {events passed rest : List Event}
  {before : Inference}

/-- What a walk reports, each with the node at which the walk is then. -/
def blames (tree : Tree) (names : NameTable) :
    List Event -> Inference -> Except Fault (List (NodeId × Diagnostic))
  | [], _ => .ok []
  | event :: events, before => do
      let (_, after) <- step tree names event before
      let later <- blames tree names events after
      return (after.diagnostics.toList.drop before.diagnostics.size).map (event.node, ·) ++ later

/-- A node may be blamed for a clash: it is of a kind that can cause one, and the report is
at its main token. -/
structure MayBlame (tree : Tree) (node : NodeId) (diagnostic : Diagnostic) : Prop where
  isMismatch : diagnostic.IsMismatch
  located : tree.location node = .ok diagnostic.location
  mayClash : ∃ found, tree.nodes[node]? = some found ∧ found.tag.mayClash = true

/-- At this step nothing is reported, or one clash on the way out of a node. -/
def AddsAtMostOne (tree : Tree) (event : Event) (before after : Array Diagnostic) : Prop :=
  after = before ∨
    ∃ node diagnostic, event = .leave node ∧ MayBlame tree node diagnostic ∧
      after = before.push diagnostic

/-- If each step of a walk reports at most one clash, then so does every node that it
leaves. -/
theorem exists_blames
    (steps : ∀ passed event rest state, events = passed ++ event :: rest ->
      (passed.forM (step tree names)) before = .ok ((), state) ->
        ∃ after, step tree names event state = .ok ((), after) ∧
          AddsAtMostOne tree event state.diagnostics after.diagnostics) :
    ∃ blamed after,
      (events.forM (step tree names)) before = .ok ((), after) ∧
        blames tree names events before = .ok blamed ∧
        after.diagnostics.toList = before.diagnostics.toList ++ blamed.map Prod.snd ∧
        (blamed.map Prod.fst).Sublist (events.filterMap Event.left?) ∧
        ∀ pair ∈ blamed, MayBlame tree pair.1 pair.2 := by
  induction events generalizing before with
  | nil => exact ⟨[], before, rfl, rfl, by simp, by simp, by simp⟩
  | cons event events ih =>
      obtain ⟨middle, stepped, adds⟩ := steps [] event events before rfl rfl
      obtain ⟨later, after, ran, found, diagnostics, sublist, mayBlame⟩ :=
        ih fun passed next rest state split reached =>
          steps (event :: passed) next rest state (by rw [split]; rfl)
            ((forM_cons_eq stepped passed).trans reached)
      have blamed : blames tree names (event :: events) before =
          .ok ((middle.diagnostics.toList.drop before.diagnostics.size).map (event.node, ·) ++
            later) := by
        simp only [blames, bind, Except.bind, stepped, found]
        rfl
      refine ⟨_, after, (forM_cons_eq stepped events).trans ran, blamed, ?_⟩
      rcases adds with same | ⟨node, diagnostic, rfl, mayBlameFirst, added⟩
      · have nothing : middle.diagnostics.toList.drop before.diagnostics.size = [] := by
          simp [same]
        rw [nothing, List.map_nil, List.nil_append]
        refine ⟨by rw [diagnostics, same], ?_, mayBlame⟩
        exact sublist.trans ((List.sublist_cons_self event events).filterMap _)
      · have one : middle.diagnostics.toList.drop before.diagnostics.size = [diagnostic] := by
          simp [added]
        rw [one, List.map_singleton, List.singleton_append, List.map_cons, List.map_cons]
        refine ⟨by simp [diagnostics, added], ?_, ?_⟩
        · -- Only a step out of a node is blamed, and every node is left once.
          exact sublist.cons_cons _
        · exact List.forall_mem_cons.mpr ⟨mayBlameFirst, mayBlame⟩

/-- What is reported on leaving a node. -/
theorem addsAtMostOne_of_leaves
    {node : NodeId}
    {found : Node}
    {waiting : List TypeId}
    {after : Inference}
    (present : tree.nodes[node]? = some found)
    (leaves : before.Leaves tree node found.tag waiting after) :
    AddsAtMostOne tree (.leave node) before.diagnostics after.diagnostics := by
  obtain ⟨agreed, reports, mayClash⟩ := leaves.reports
  generalize after.diagnostics = diagnostics at reports
  cases reports with
  | agreed => exact .inl rfl
  | clashed isMismatch located =>
      exact .inr ⟨node, _, rfl, ⟨isMismatch, located, found, present, mayClash rfl⟩, rfl⟩

/-- Every step of the walk through a program is made, and what it reports or throws away is
known. -/
theorem exists_step
    {program : Program Mark}
    {event : Event}
    (legible : tree.Legible program)
    (names : NameTable)
    (split : program.outline.events = passed ++ event :: rest) :
    ∃ state after,
      (passed.forM (step tree names)) {} = .ok ((), state) ∧
        step tree names event state = .ok ((), after) ∧
        AddsAtMostOne tree event state.diagnostics after.diagnostics ∧
        ∀ node found, event = .leave node -> tree.nodes[node]? = some found ->
          found.tag.dropsOutcome = true -> DropsNoClash tree names node found.tag state after := by
  have stands := legible.stands
  obtain ⟨earlier, part, reaches, last⟩ := Outline.exists_reaches split
  obtain ⟨state, ran, sound, -⟩ := reaches.exists_state stands names .empty
  have isPart := reaches.mem_parts
  have partStands := stands part isPart
  rcases last with ⟨rfl, rfl⟩ | ⟨rfl, rfl⟩
  · exact ⟨state, _, ran, partStands.enter_eq state, .inl (by simp), by simp⟩
  · have walks : ∀ child ∈ part.children, child.Walks tree names := fun child isChild =>
      Outline.walks names fun lower isLower => stands lower
        (Outline.parts_subset (Outline.mem_parts_of_mem_children isPart isChild) isLower)
    obtain ⟨walked, after, passes⟩ := partStands.exists_passes walks sound
    obtain ⟨left, right, present⟩ := partStands.present
    refine ⟨walked, after, (forM_append_eq ran _).trans passes.ran, passes.left,
      addsAtMostOne_of_leaves present passes.leaves, ?_⟩
    rintro _ found ⟨⟩ samePresent dropsOutcome
    cases present.symm.trans samePresent
    exact passes.drops dropsOutcome

/-- What is said of the clashes on the walk through a tree. -/
structure BlamesOnce
    (tree : Tree)
    (names : NameTable)
    (events : List Event)
    (inference : Inference) : Prop where
  /-- Wherever the outcome of a unification is thrown away, it was no clash. -/
  drops : ∀ passed node rest found, events = passed ++ .leave node :: rest ->
    tree.nodes[node]? = some found -> found.tag.dropsOutcome = true ->
      ∃ state after,
        (passed.forM (step tree names)) {} = .ok ((), state) ∧
          step tree names (.leave node) state = .ok ((), after) ∧
          DropsNoClash tree names node found.tag state after
  /-- All clashes are blamed on nodes that may cause them, and on each at most one. -/
  blamed : ∃ blamed, blames tree names events {} = .ok blamed ∧
    blamed.map Prod.snd = inference.diagnostics.toList ∧ (blamed.map Prod.fst).Nodup ∧
    ∀ pair ∈ blamed, MayBlame tree pair.1 pair.2

/-- The walk through a program blames each node at most once. -/
theorem exists_blamesOnce
    {program : Program Mark}
    (legible : tree.Legible program)
    (names : NameTable) :
    ∃ events inference, tree.events = .ok events ∧ tree.inference names = .ok inference ∧
      BlamesOnce tree names events inference := by
  have walk := legible.represents.events legible.small
  rw [← program.events_outline] at walk
  have steps : ∀ passed event rest (state : Inference),
      program.outline.events = passed ++ event :: rest ->
        (passed.forM (step tree names)) {} = .ok ((), state) ->
          ∃ after, step tree names event state = .ok ((), after) ∧
            AddsAtMostOne tree event state.diagnostics after.diagnostics := by
    intro passed event rest state split reached
    obtain ⟨_, after, sameReached, stepped, adds, -⟩ := exists_step legible names split
    cases reached.symm.trans sameReached
    exact ⟨after, stepped, adds⟩
  obtain ⟨blamed, inference, ran, found, diagnostics, sublist, mayBlame⟩ := exists_blames steps
  refine ⟨_, inference, walk, ?_, ?_, blamed, found, ?_, ?_, mayBlame⟩
  · simp only [Tree.inference, walk, bind, Except.bind, StateT.run, ran]
    rfl
  · intro passed node rest found split present dropsOutcome
    obtain ⟨state, after, reached, stepped, -, drops⟩ := exists_step legible names split
    exact ⟨state, after, reached, stepped, drops node found rfl present dropsOutcome⟩
  · simpa using diagnostics.symm
  · refine sublist.nodup ?_
    rw [Outline.left_events]
    have distinct := legible.represents.nodes_perm.nodup_iff.mpr List.nodup_range
    have labelled := program.outline.map_label_parts_perm.map Mark.node
    rw [List.map_map] at labelled
    exact labelled.nodup_iff.mp distinct

end Infer

namespace Source

/-- The analysis of a source that can be read throws away no clash of types. It reports the
clashes that inference finds and no others, blames each of them on a node of a kind that may
cause one, at its main token, and blames no node twice. -/
theorem clashes_are_blamed_once
    {source : Source}
    {tree : Tree}
    (made : source.tree = .ok tree)
    (addressable : tree.Addressable)
    (report : Report) :
    ∃ analysis after events inference named,
      source.analyze report = .ok (some analysis, after) ∧ analysis.tree = tree ∧
        tree.events = .ok events ∧ tree.inference analysis.names = .ok inference ∧
        after.diagnostics = report.diagnostics ++ named ++ inference.diagnostics ∧
        (∀ diagnostic ∈ named, ¬ diagnostic.IsMismatch) ∧
        Infer.BlamesOnce tree analysis.names events inference := by
  obtain ⟨_, program, -, -, legible⟩ := exists_legible made addressable
  obtain ⟨resolution, names, inference, types, resolved, named, inferred, -, analyzed⟩ :=
    legible.exists_analyze report
  obtain ⟨_, _, sameResolved, -, isLexical, -⟩ := legible.exists_names
  cases resolved.symm.trans sameResolved
  obtain ⟨events, sameInference, walk, sameInferred, blamesOnce⟩ :=
    Infer.exists_blamesOnce legible names
  cases inferred.symm.trans sameInferred
  refine ⟨{ tree, names, types },
    (report.append resolution.diagnostics).append inference.diagnostics, events, inference,
    resolution.diagnostics, ?_, rfl, walk, inferred, rfl, isLexical.not_isMismatch, blamesOnce⟩
  simp only [Source.analyze, made, analyzed, bind, Except.bind]
  rfl

/-- A sum, a sign and an assignment with types that clash. -/
def mismatched : Source :=
  .ofText "var x = 1 + true\nx = -true" none

theorem clashes_are_blamed_once_mismatched :
    ∃ tree analysis after events inference named, mismatched.tree = .ok tree ∧ tree.Addressable ∧
      mismatched.analyze (.empty 10) = .ok (some analysis, after) ∧ analysis.tree = tree ∧
      tree.events = .ok events ∧ tree.inference analysis.names = .ok inference ∧
      after.diagnostics = #[] ++ named ++ inference.diagnostics ∧
      (∀ diagnostic ∈ named, ¬ diagnostic.IsMismatch) ∧
      after.diagnostics =
        #[⟨.mismatch "int" "bool", ⟨1, 11, "shell"⟩⟩, ⟨.mismatch "bool" "int", ⟨2, 5, "shell"⟩⟩,
          ⟨.mismatch "int" "bool", ⟨2, 3, "shell"⟩⟩] ∧
      Infer.BlamesOnce tree analysis.names events inference := by
  obtain ⟨tree, made, addressable⟩ : ∃ tree, mismatched.tree = .ok tree ∧ tree.Addressable := by
    refine ⟨_, by cbv, ?_, ?_⟩ <;> cbv
  have reported : (mismatched.analyze (.empty 10)).map (fun result => result.2.diagnostics) =
      .ok #[⟨.mismatch "int" "bool", ⟨1, 11, "shell"⟩⟩,
        ⟨.mismatch "bool" "int", ⟨2, 5, "shell"⟩⟩,
        ⟨.mismatch "int" "bool", ⟨2, 3, "shell"⟩⟩] := by cbv
  obtain ⟨analysis, after, events, inference, named, analyzed, sameTree, walk, inferred, added,
    others, blamesOnce⟩ := clashes_are_blamed_once made addressable (.empty 10)
  rw [analyzed, Except.map, Except.ok.injEq] at reported
  exact ⟨tree, analysis, after, events, inference, named, made, addressable, analyzed, sameTree,
    walk, inferred, added, others, reported, blamesOnce⟩

end Source

end Frontend
