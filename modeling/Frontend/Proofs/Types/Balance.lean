import Frontend.Proofs.Grammar.Around
import Frontend.Proofs.Types.Leaving

/-!
# Inference is a balanced stack machine

From every state that the steps keep sound, the walk through a phrase leaves what was on the
stack alone, and adds one type to it if the phrase has one. The results of the functions
around are the same as before. A walk that gets to a part has the result of the innermost
function around it at hand.
-/

namespace Frontend

namespace Infer

variable {tree : Tree} {names : NameTable} {before middle : Inference}

theorem forM_append_eq
    {first : List Event}
    (ran : (first.forM (step tree names)) before = .ok ((), middle))
    (second : List Event) :
    ((first ++ second).forM (step tree names)) before =
      (second.forM (step tree names)) middle := by
  rw [List.forM_eq_forM, List.forM_append]
  exact bind_eq ran

theorem forM_cons_eq
    {event : Event}
    (stepped : step tree names event before = .ok ((), middle))
    (events : List Event) :
    ((event :: events).forM (step tree names)) before =
      (events.forM (step tree names)) middle :=
  bind_eq stepped

theorem forM_singleton_eq
    {event : Event}
    (stepped : step tree names event before = .ok ((), middle)) :
    ([event].forM (step tree names)) before = .ok ((), middle) :=
  (forM_cons_eq stepped []).trans rfl

end Infer

namespace Inference

variable {before middle after : Inference}

/-- The state inside of a node. A function has made a type for its result. -/
def inside (before : Inference) (node : NodeId) (tag : Tag) : Inference :=
  if tag = .function then
    { before with
      graph := (before.graph.fresh (some node)).2
      results := (before.graph.fresh (some node)).1 :: before.results }
  else before

theorem inside_of_ne {tag : Tag} (noFunction : tag ≠ .function) (node : NodeId) :
    before.inside node tag = before :=
  if_neg noFunction

@[simp] theorem operands_inside (node : NodeId) (tag : Tag) :
    (before.inside node tag).operands = before.operands := by
  unfold inside
  split <;> rfl

@[simp] theorem nodeTypes_inside (node : NodeId) (tag : Tag) :
    (before.inside node tag).nodeTypes = before.nodeTypes := by
  unfold inside
  split <;> rfl

@[simp] theorem diagnostics_inside (node : NodeId) (tag : Tag) :
    (before.inside node tag).diagnostics = before.diagnostics := by
  unfold inside
  split <;> rfl

/-- On leaving a node, only the results of the functions around it are left. -/
theorem results_closed (before : Inference) (node : NodeId) (tag : Tag) :
    (if tag = .function then (before.inside node tag).results.tail
      else (before.inside node tag).results) = before.results := by
  unfold inside
  split <;> rfl

/-- What the walk through some outlines does: their types come before what was on the
stack, and just the parts that have a type get one. -/
structure Walked
    (parts : List (Outline Mark))
    (types : List TypeId)
    (before after : Inference) : Prop where
  sound : after.Sound
  operands : after.operands = types ++ before.operands
  results : after.results = before.results
  typed : ∀ node, (∃ id, after.nodeTypes[node]? = some id) ↔
    (∃ id, before.nodeTypes[node]? = some id) ∨
      ∃ part ∈ parts, part.label.node = node ∧ part.tag.isTyped = true

theorem Walked.refl (sound : before.Sound) : Walked [] [] before before where
  sound := sound
  operands := rfl
  results := rfl
  typed := by simp

theorem Walked.append
    {parts others : List (Outline Mark)}
    {types more : List TypeId}
    (first : Walked parts types before middle)
    (second : Walked others more middle after) :
    Walked (parts ++ others) (more ++ types) before after where
  sound := second.sound
  operands := by rw [second.operands, first.operands, List.append_assoc]
  results := second.results.trans first.results
  typed node := by
    rw [second.typed, first.typed, or_assoc]
    simp only [List.mem_append, or_and_right, exists_or]

end Inference

section Walks

variable {tree : Tree} {names : NameTable} {outline : Outline Mark} {before : Inference}

open Infer

theorem Outline.Stands.enter_eq
    (stands : outline.Stands tree)
    (before : Inference) :
    step tree names (.enter outline.label.node) before =
      .ok ((), before.inside outline.label.node outline.tag) := by
  obtain ⟨left, right, present⟩ := stands.present
  rw [step, enter, bind_eq (lift_eq (Tree.node_eq_ok present) _), Inference.inside]
  by_cases isFunction : outline.tag = .function
  · rw [if_pos isFunction, if_pos isFunction]
    rfl
  · rw [if_neg isFunction, if_neg isFunction]
    rfl

theorem Outline.Stands.sound_inside
    (stands : outline.Stands tree)
    (sound : before.Sound) :
    (before.inside outline.label.node outline.tag).Sound := by
  have stepped : step tree {} (.enter outline.label.node) before = _ := stands.enter_eq before
  exact (sound.moves (moves_of_step sound stepped)).1

/-- The walk through an outline can be made from every state that is sound. It puts the type
of the outline, if it has one, on the stack. -/
def Outline.Walks (tree : Tree) (names : NameTable) (outline : Outline Mark) : Prop :=
  ∀ before : Inference, before.Sound ->
    ∃ (own : Option TypeId) (after : Inference),
      (outline.events.forM (step tree names)) before = .ok ((), after) ∧
        own.isSome = outline.tag.isTyped ∧ before.Walked outline.parts own.toList after ∧
        ∀ id ∈ own, after.nodeTypes[outline.label.node]? = some id

/-- The walks through some outlines in a row. -/
theorem Outline.exists_walks
    {outlines : List (Outline Mark)}
    (walks : ∀ outline ∈ outlines, outline.Walks tree names)
    (sound : before.Sound) :
    ∃ types after,
      ((outlines.map events).flatten.forM (step tree names)) before = .ok ((), after) ∧
        types.length = (outlines.map tag).countP Tag.isTyped ∧
        before.Walked (outlines.map parts).flatten types after := by
  induction outlines generalizing before with
  | nil => exact ⟨[], before, rfl, rfl, .refl sound⟩
  | cons outline outlines ih =>
      rw [List.forall_mem_cons] at walks
      obtain ⟨own, middle, ran, isTyped, walked, -⟩ := walks.1 before sound
      obtain ⟨types, after, more, count, others⟩ := ih walks.2 walked.sound
      refine ⟨types ++ own.toList, after, ?_, ?_, walked.append others⟩
      · rw [List.map_cons, List.flatten_cons, forM_append_eq ran, more]
      · rw [List.length_append, count, List.map_cons, List.countP_cons, ← isTyped]
        cases own <;> rfl

/-- The walk through an outline up to the step out of its node, and this step. -/
structure Outline.Passes
    (tree : Tree)
    (names : NameTable)
    (outline : Outline Mark)
    (before walked after : Inference) : Prop where
  ran : ((.enter outline.label.node :: (outline.children.map events).flatten).forM
    (step tree names)) before = .ok ((), walked)
  inner : ∃ types, (before.inside outline.label.node outline.tag).Walked
    (outline.children.map parts).flatten types walked
  left : step tree names (.leave outline.label.node) walked = .ok ((), after)
  leaves : walked.Leaves tree outline.label.node outline.tag before.operands after
  drops : outline.tag.dropsOutcome = true ->
    DropsNoClash tree names outline.label.node outline.tag walked after
  sound : after.Sound

theorem Outline.Stands.exists_passes
    (stands : outline.Stands tree)
    (walks : ∀ child ∈ outline.children, child.Walks tree names)
    (sound : before.Sound) :
    ∃ walked after, outline.Passes tree names before walked after := by
  obtain ⟨types, walked, ran, count, inner⟩ := exists_walks walks (stands.sound_inside sound)
  have stacked := inner.operands
  rw [Inference.operands_inside] at stacked
  have opened : outline.tag = .function -> walked.results ≠ [] := by
    intro isFunction
    simp [inner.results, Inference.inside, isFunction]
  obtain ⟨after, ran_leave, leaves, drops⟩ := stands.exists_leave inner.sound stacked count opened
  have left : step tree names (.leave outline.label.node) walked = .ok ((), after) := ran_leave
  refine ⟨walked, after, ?_, ⟨types, inner⟩, left, leaves, drops, ?_⟩
  · rw [forM_cons_eq (stands.enter_eq before), ran]
  · exact (inner.sound.moves (moves_of_step inner.sound left)).1

/-- The type of an outline takes the place of those of its children. -/
theorem Outline.Passes.exists_walked
    {walked after : Inference}
    (passes : outline.Passes tree names before walked after) :
    ∃ own : Option TypeId, own.isSome = outline.tag.isTyped ∧
      before.Walked outline.parts own.toList after ∧
      ∀ id ∈ own, after.nodeTypes[outline.label.node]? = some id := by
  obtain ⟨types, inner⟩ := passes.inner
  obtain ⟨own, isTyped, operands, nodeTypes⟩ := passes.leaves.operands
  cases outline with
  | node mark tag children =>
      rw [label_node, tag_node, children_node] at *
      refine ⟨own, isTyped, ⟨passes.sound, operands, ?_, fun node => ?_⟩, ?_⟩
      · rw [passes.leaves.results, inner.results]
        exact before.results_closed mark.node tag
      · have below := inner.typed node
        rw [Inference.nodeTypes_inside] at below
        rw [Outline.parts_node, nodeTypes]
        cases own with
        | none =>
            have untyped : tag.isTyped = false := isTyped.symm
            simpa [untyped] using below
        | some id =>
            have typed : tag.isTyped = true := isTyped.symm
            simp only [Option.elim_some, Std.TreeMap.getElem?_insert,
              List.exists_mem_cons_iff, label_node, tag_node, typed, and_true]
            split
            next same => simp_all
            next other => simp_all
      · rintro id ⟨⟩
        simp [nodeTypes]

/-- From every state that is sound, the walk through an outline whose parts all stand in the
tree can be made. -/
theorem Outline.walks
    (names : NameTable)
    (stands : ∀ part ∈ outline.parts, part.Stands tree) :
    outline.Walks tree names := by
  induction outline with
  | node mark tag children ih =>
      intro before sound
      rw [forall_parts_node] at stands
      obtain ⟨outer, below⟩ := stands
      obtain ⟨walked, after, passes⟩ := outer.exists_passes
        (fun child member => ih child member (below child member)) sound
      obtain ⟨own, isTyped, result, typed⟩ := passes.exists_walked
      refine ⟨own, after, ?_, isTyped, result, typed⟩
      rw [events_eq, forM_append_eq passes.ran, forM_singleton_eq passes.left]

/-! ## Parts of a walk -/

/-- The walk from the outer node has gone through these steps and got to the node. Either no
function was entered on the way down to it, and the results are those from before the walk,
or the latest one is that of the innermost function around the node. -/
inductive Infer.Gets
    (tree : Tree)
    (names : NameTable)
    (outer : NodeId)
    (before : Inference)
    (passed : List Event)
    (node : NodeId)
    (results : List TypeId) : Prop
  | loose :
      tree.IsLoose outer node -> results = before.results ->
        Gets tree names outer before passed node results
  | inside
      {function : NodeId}
      {earlier inner : List Event}
      {entering : Inference} :
      tree.IsFunctionAround function node -> passed = earlier ++ .enter function :: inner ->
      (earlier.forM (step tree names)) before = .ok ((), entering) ->
      results = (entering.graph.fresh (some function)).1 :: entering.results ->
        Gets tree names outer before passed node results

/-- A walk gets to each part in a state that is sound. -/
theorem Outline.Reaches.exists_state
    {passed : List Event}
    {part : Outline Mark}
    (stands : ∀ part ∈ outline.parts, part.Stands tree)
    (names : NameTable)
    (sound : before.Sound)
    (reaches : outline.Reaches passed part) :
    ∃ state : Inference, (passed.forM (step tree names)) before = .ok ((), state) ∧ state.Sound ∧
      Gets tree names outline.label.node before passed part.label.node state.results := by
  induction reaches with
  | start => exact ⟨before, rfl, sound, .loose .refl rfl⟩
  | @child passed part child earlier later reaches split ih =>
      obtain ⟨state, ran, stateSound, gets⟩ := ih
      have isPart := reaches.mem_parts
      have partStands := stands part isPart
      have isChild : tree.IsChild part.label.node child.label.node :=
        ⟨_, partStands.children, List.mem_map_of_mem (split ▸ List.mem_append_cons_self)⟩
      have walks : ∀ sibling ∈ earlier, sibling.Walks tree names := by
        intro sibling member
        have isSibling : sibling ∈ part.children := by
          rw [split]
          exact List.mem_append_left _ member
        refine Outline.walks names fun lower isLower => stands lower ?_
        exact parts_subset (mem_parts_of_mem_children isPart isSibling) isLower
      obtain ⟨types, walked, walkRan, -, inner⟩ :=
        exists_walks walks (partStands.sound_inside stateSound)
      have more := forM_append_eq ran (.enter part.label.node :: (earlier.map events).flatten)
      rw [forM_cons_eq (partStands.enter_eq state), walkRan] at more
      refine ⟨walked, more, inner.sound, ?_⟩
      -- A function that is entered here is the innermost one around the child.
      by_cases isFunction : part.tag = .function
      · have tagged := partStands.tag?_eq
        rw [isFunction] at tagged
        refine .inside (.of_isChild tagged isChild) rfl ran ?_
        rw [inner.results, Inference.inside, if_pos isFunction]
      · have noFunction : tree.tag? part.label.node ≠ some .function := by
          rw [partStands.tag?_eq]
          simpa using isFunction
        have same : walked.results = state.results := by
          rw [inner.results, Inference.inside_of_ne isFunction]
        cases gets with
        | loose loose results =>
            exact .loose (loose.child noFunction isChild) (same.trans results)
        | @inside function first inner _ around found entered results =>
            have longer : passed ++ .enter part.label.node :: (earlier.map events).flatten =
                first ++ .enter function ::
                  (inner ++ .enter part.label.node :: (earlier.map events).flatten) := by
              rw [found, List.append_assoc, List.cons_append]
            exact .inside (around.child noFunction isChild) longer entered (same.trans results)

/-- The type stands for the result of the innermost function around the node. It is the one
that was made when the walk entered this function. If the function is around the outer node,
at which the walk has started, it is the latest one that was there before. -/
inductive Infer.IsResultAround
    (tree : Tree)
    (names : NameTable)
    (outer : NodeId)
    (before : Inference)
    (passed : List Event)
    (node : NodeId) : TypeId -> Prop
  | entered
      {function : NodeId}
      {earlier inner : List Event}
      {entering : Inference} :
      tree.IsFunctionAround function node -> passed = earlier ++ .enter function :: inner ->
      (earlier.forM (step tree names)) before = .ok ((), entering) ->
        IsResultAround tree names outer before passed node (entering.graph.fresh (some function)).1
  | outer {function : NodeId} {result : TypeId} :
      tree.IsFunctionAround function node -> tree.IsFunctionAround function outer ->
      before.results.head? = some result ->
        IsResultAround tree names outer before passed node result

/-- A return with a value is left with the type of the value on top of the stack. -/
theorem Outline.Reaches.exists_value
    {earlier : List Event}
    {part : Outline Mark}
    (stands : ∀ part ∈ outline.parts, part.Stands tree)
    (names : NameTable)
    (sound : before.Sound)
    (reaches : outline.Reaches earlier part)
    (isReturn : part.tag = .return)
    {value : NodeId}
    (valueRead : tree.returnValue part.label.node = .ok (some value)) :
    ∃ (state : Inference) (id : TypeId) (waiting : List TypeId),
      ((earlier ++ .enter part.label.node :: (part.children.map events).flatten).forM
        (step tree names)) before = .ok ((), state) ∧
        state.operands = id :: waiting ∧ state.nodeTypes[value]? = some id ∧
        Gets tree names outline.label.node before earlier part.label.node state.results := by
  obtain ⟨entering, ran, enteringSound, gets⟩ := reaches.exists_state stands names sound
  have partStands := stands part reaches.mem_parts
  obtain ⟨left, right, present⟩ := partStands.present
  have read := partStands.children
  simp only [Tree.children, Tree.node_eq_ok present, isReturn, bind, Except.bind, valueRead] at read
  obtain ⟨child, onlyChild, isValue⟩ := List.map_eq_singleton_iff.mp (Except.ok.inj read).symm
  have fits := partStands.fits
  rw [Outline.Fits, isReturn, onlyChild] at fits
  have isExpression : child.tag = .expression := by simpa [Tag.Admits] using fits
  have isChild : child ∈ part.children := by simp [onlyChild]
  have childStands : ∀ lower ∈ child.parts, lower.Stands tree := fun lower isLower =>
    stands lower (parts_subset (mem_parts_of_mem_children reaches.mem_parts isChild) isLower)
  obtain ⟨own, state, walkRan, isTyped, walked, typed⟩ :=
    Outline.walks names childStands entering enteringSound
  rw [isExpression] at isTyped
  obtain ⟨id, rfl⟩ := Option.isSome_iff_exists.mp isTyped
  refine ⟨state, id, entering.operands, ?_, walked.operands, isValue ▸ typed id rfl,
    walked.results ▸ gets⟩
  rw [forM_append_eq ran, forM_cons_eq (partStands.enter_eq entering),
    Inference.inside_of_ne (by simp [isReturn]), onlyChild]
  simpa using walkRan

end Walks

end Frontend
