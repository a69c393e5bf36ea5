import Frontend.Proofs.Grammar.Legible
import Frontend.Proofs.Scope.Lexical
import Frontend.Proofs.Types.Nodes

/-!
# Inference on the walk through a program

Walking through a phrase demands the rules for its nodes, and that its identifiers have
the trees of their names. The nodes are left in the order of their numbers, so that
each of them gets a type once.
-/

namespace Frontend

namespace Infer

/-! ## Steps in a row -/

namespace Demands

variable
  {tree : Tree}
  {action first second : Infer Unit}
  {start middle stop : Nat}
  {functions popped pushed used kept : List NodeId}
  {Adds Other First Second : Requirement}

theorem congr
    (demands : action.Demands tree start stop functions popped pushed Adds)
    (alike : ∀ (Var : Type) (assignment : Slot -> TypeTree Var),
      Adds Var assignment ↔ Other Var assignment) :
    action.Demands tree start stop functions popped pushed Other := by
  intro inference placed waiting Required reflects avoids
  obtain ⟨next, more, ran, nextReflects, fills⟩ := demands _ _ _ _ reflects avoids
  refine ⟨next, more, ran, nextReflects.congr fun Var assignment => ?_, fills⟩
  rw [alike]

/-- A step that does nothing. -/
theorem nothing
    (fills : Fills tree start stop [])
    (functions kept : List NodeId)
    (same : ∀ inference, action inference = .ok ((), inference)) :
    action.Demands tree start stop functions kept kept (fun _ _ => True) := by
  intro inference placed waiting Required reflects avoids
  exact ⟨inference, [], same inference, reflects.congr (by simp), fills⟩

/-- Of two steps in a row, the second leaves alone what the first has put below its
operands. -/
theorem seq
    (ahead : first.Demands tree start middle functions popped (used ++ kept) First)
    (after : second.Demands tree middle stop functions used pushed Second)
    (startLe : start ≤ middle)
    (stopLe : middle ≤ stop) :
    (first >>= fun _ => second).Demands tree start stop functions popped (pushed ++ kept)
      (fun Var assignment => First Var assignment ∧ Second Var assignment) := by
  intro inference placed waiting Required reflects avoids
  obtain ⟨between, some, ran, betweenReflects, fills⟩ :=
    ahead _ _ _ _ reflects (avoids.mono (Nat.le_refl _) stopLe)
  have late : Avoids middle stop (some ++ placed) := by
    intro pair member number belongs
    rcases List.mem_append.mp member with new | old
    · exact .inl (fills.confined pair new number belongs).2
    · have outside := avoids pair old number belongs
      omega
  rw [List.append_assoc] at betweenReflects
  obtain ⟨next, more, went, nextReflects, moreFills⟩ := after _ _ _ _ betweenReflects late
  refine ⟨next, more ++ some, ?_, ?_, fills.append moreFills startLe stopLe⟩
  · rw [bind_eq ran, went]
  · rw [List.append_assoc, List.append_assoc]
    exact nextReflects.congr fun _ _ => and_assoc

end Demands

/-! ## Events -/

section Events

variable
  {tree : Tree}
  {names : NameTable}
  {start stop : Nat}
  {node : NodeId}
  {functions used pushed : List NodeId}
  {Inner Outer : Requirement}

theorem forM_around (inner : List Event) :
    (Event.around node inner).forM (step tree names) =
      enter tree node >>= fun _ =>
        inner.forM (step tree names) >>= fun _ => leave tree names node := by
  simp only [Event.around, List.forM_eq_forM, List.cons_append, List.forM_cons,
    List.forM_append, List.forM_nil, bind_pure_unit, step]

/-- Nothing is done on the way into a node that is not a function. -/
theorem enter_eq
    {found : Node}
    (present : tree.nodes[node]? = some found)
    (quiet : found.tag ≠ .function)
    (inference : Inference) :
    enter tree node inference = .ok ((), inference) := by
  rw [enter, bind_eq (lift_eq (Tree.node_eq_ok present) _), if_neg quiet]
  rfl

theorem bind_enter_eq
    {found : Node}
    (present : tree.nodes[node]? = some found)
    (quiet : found.tag ≠ .function)
    (rest : Infer Unit) :
    (enter tree node >>= fun _ => rest) = rest := by
  funext inference
  rw [bind_eq (enter_eq present quiet inference)]

/-- What is done on the way out of a node depends on its tag. -/
theorem leave_eq {found : Node} (present : tree.nodes[node]? = some found) :
    leave tree names node = leaveAs tree names node found.tag := by
  funext inference
  rw [leave, bind_eq (lift_eq (Tree.node_eq_ok present) _)]

/-- A walk into a node that is not a function, and out of it. -/
theorem Demands.around
    {found : Node}
    {inner : List Event}
    (present : tree.nodes[node]? = some found)
    (quiet : found.tag ≠ .function)
    (startLe : start ≤ node)
    (inside : (inner.forM (step tree names)).Demands tree start node functions [] used Inner)
    (outside : (leaveAs tree names node found.tag).Demands tree node (node + 1) functions used
      pushed Outer) :
    ((Event.around node inner).forM (step tree names)).Demands tree start (node + 1) functions []
      pushed (fun Var assignment => Inner Var assignment ∧ Outer Var assignment) := by
  rw [forM_around, bind_enter_eq present quiet, leave_eq present]
  rw [← List.append_nil used] at inside
  rw [← List.append_nil pushed]
  exact inside.seq outside startLe (Nat.le_succ node)

/-- Nodes without children are only left. -/
theorem Demands.leaf
    {found : Node}
    (present : tree.nodes[node]? = some found)
    (quiet : found.tag ≠ .function)
    (demands : (leaveAs tree names node found.tag).Demands tree node (node + 1) functions []
      pushed Outer) :
    ((Event.around node []).forM (step tree names)).Demands tree node (node + 1) functions []
      pushed Outer := by
  have inside : (([] : List Event).forM (step tree names)).Demands tree node node functions [] []
      (fun _ _ => True) := .nothing (.empty tree node) functions [] fun _ => rfl
  exact (Demands.around present quiet (Nat.le_refl _) inside demands).congr (by simp)

/-- Two walks in a row. -/
theorem Demands.append
    {events more : List Event}
    {middle : Nat}
    {First Second : Requirement}
    (ahead : (events.forM (step tree names)).Demands tree start middle functions [] used First)
    (after : (more.forM (step tree names)).Demands tree middle stop functions [] pushed Second)
    (startLe : start ≤ middle)
    (stopLe : middle ≤ stop) :
    ((events ++ more).forM (step tree names)).Demands tree start stop functions []
      (pushed ++ used)
      (fun Var assignment => First Var assignment ∧ Second Var assignment) := by
  rw [← List.nil_append used] at ahead
  rw [List.forM_eq_forM, List.forM_append]
  exact ahead.seq after startLe stopLe

/-- Phrases in a row put their types on the stack one after the other. -/
theorem Demands.flatten
    {Item : Type}
    {items : List Item}
    {events : Item -> List Event}
    {labels : Item -> List Mark}
    {Adds : Item -> Requirement}
    (pushes : Item -> List NodeId)
    (numbered : Numbered start stop (items.map labels).flatten)
    (each : ∀ item ∈ items, ∀ first last, Numbered first last (labels item) ->
      ((events item).forM (step tree names)).Demands tree first last functions [] (pushes item)
        (Adds item))
    (order : items.reverse.flatMap pushes = pushed) :
    ((items.map events).flatten.forM (step tree names)).Demands tree start stop functions []
      pushed
      (fun Var assignment => ∀ item ∈ items, Adds item Var assignment) := by
  subst order
  induction items generalizing start with
  | nil =>
      obtain rfl : start = stop := numbered.1
      exact (Demands.nothing (.empty tree start) functions [] fun _ => rfl).congr (by simp)
  | cons item items ih =>
      rw [List.map_cons, List.flatten_cons] at numbered
      obtain ⟨middle, itemNumbered, restNumbered⟩ := numbered.of_append
      have rest := ih restNumbered fun other member =>
        each other (List.mem_cons_of_mem _ member)
      have ahead := each item List.mem_cons_self start middle itemNumbered
      rw [List.map_cons, List.flatten_cons, List.reverse_cons, List.flatMap_append,
        List.flatMap_singleton]
      exact (ahead.append rest itemNumbered.le restNumbered.le).congr (by simp)

/-- A function has a type for its result while the walk is inside. -/
theorem Demands.function
    {token left right name body : Nat}
    {parameters : List NodeId}
    {inner : List Event}
    (present : tree.nodes[node]? = some ⟨.function, token, left, right⟩)
    (located : ∃ location, tree.location node = .ok location)
    (parts : tree.functionParts node = .ok ⟨name, parameters, body⟩)
    (startLe : start ≤ node)
    (inside : (inner.forM (step tree names)).Demands tree start node (node :: functions) []
      (parameters.reverse ++ [name]) Inner) :
    ((Event.around node inner).forM (step tree names)).Demands tree start (node + 1) functions []
      [] (fun Var assignment => Inner Var assignment ∧ assignment (.node name) =
        .function (parameters.map (fun parameter => assignment (.node parameter)) ++
          [assignment (.result node)])) := by
  intro inference placed waiting Required reflects avoids
  obtain ⟨id, graph, made, captures, -, -⟩ :=
    exists_fresh inference reflects.captures (.result node) node
  have opened := reflects.openFunction
    ((avoids.mono startLe (Nat.le_refl _)).not_mem rfl) captures
  have avoidsResult : Avoids start node ((.result node, id) :: placed) := by
    refine List.forall_mem_cons.mpr ⟨fun number belongs => ?_,
      avoids.mono (Nat.le_refl _) (Nat.le_succ node)⟩
    cases belongs
    exact .inr (Nat.le_refl _)
  obtain ⟨walked, more, ran, walkedReflects, fills⟩ := inside _ _ _ _ opened avoidsResult
  rw [List.append_assoc] at walkedReflects
  obtain ⟨next, declared, nextReflects⟩ :=
    exists_functionDeclaration located parts walkedReflects
  have fillsResult : Fills tree node (node + 1) [(.result node, id)] :=
    .noNode (Tree.not_isTyped_of_tag present rfl) (by simp)
  refine ⟨next, more ++ [(.result node, id)], ?_, ?_,
    (fills.append fillsResult startLe (Nat.le_succ node)).swap⟩
  · have entered : enter tree node inference =
        .ok ((), { inference with graph, results := id :: inference.results }) := by
      rw [enter, bind_eq (lift_eq (Tree.node_eq_ok present) _), if_pos rfl, bind_eq made]
      rfl
    rw [forM_around, bind_eq entered, bind_eq ran, leave_eq present]
    exact declared
  · rw [List.append_assoc]
    exact nextReflects.congr fun _ _ => and_assoc

end Events

end Infer

/-! ## Phrases -/

/-- The trees of an expression obey the rules, and its identifiers have the trees of
their names. -/
def Expression.Requires (names : NameTable) (expression : Expression Mark) : Requirement :=
  fun Var assignment =>
    expression.Typed (fun node => assignment (.node node)) ∧
      ∀ mark ∈ expression.identifiers, names.Shares mark.node Var assignment

/-- The trees of a whole expression obey the rules, and its identifiers have the trees of
their names. -/
def Whole.Requires (names : NameTable) (whole : Whole Mark) : Requirement :=
  fun Var assignment =>
    whole.Typed (fun node => assignment (.node node)) ∧
      ∀ mark ∈ whole.inner.identifiers, names.Shares mark.node Var assignment

/-- The trees of a statement obey the rules, where `around` is the innermost function
that it is a part of, and its identifiers have the trees of their names. -/
def Statement.Requires
    (names : NameTable)
    (around : Option NodeId)
    (statement : Statement Mark) : Requirement :=
  fun Var assignment =>
    statement.Typed (fun node => assignment (.node node))
        (fun function => assignment (.result function)) around ∧
      ∀ mark ∈ statement.identifiers, names.Shares mark.node Var assignment

section Phrases

variable
  {tree : Tree}
  {names : NameTable}
  {start stop : Nat}
  {functions : List NodeId}

open Infer

theorem Tree.Locates.exists_location
    {mark : Mark}
    {tag : Tag}
    {left right : Nat}
    (located : tree.Locates mark)
    (present : tree.nodes[mark.node]? = some ⟨tag, mark.token, left, right⟩) :
    ∃ location, tree.location mark.node = .ok location :=
  ⟨_, located.location_eq_ok present⟩

/-- An identifier. -/
theorem Mark.IsIdentifier.demands
    {mark : Mark}
    (present : mark.IsIdentifier tree.nodes)
    (located : tree.Locates mark) :
    (mark.events.forM (step tree names)).Demands tree mark.node (mark.node + 1) functions []
      [mark.node] (names.Shares mark.node) := by
  exact .leaf present (by simp)
    (demands_identifier (Tree.isTyped_of_tag present rfl) (located.exists_location present))

/-- Walking through an expression demands the rules for its nodes. -/
theorem Expression.Holds.demands
    {expression : Expression Mark}
    (held : expression.Holds tree.nodes tree.extra)
    (located : ∀ mark ∈ expression.labels, tree.Locates mark)
    (numbered : Numbered start stop expression.labels) :
    (expression.events.forM (step tree names)).Demands tree start stop functions []
      [expression.label.node] (expression.Requires names) := by
  induction held generalizing start stop with
  | @identifier mark present =>
      rw [labels] at numbered located
      obtain ⟨rfl, rfl⟩ := numbered.of_singleton
      rw [events]
      refine (present.demands (located mark (by simp))).congr fun Var assignment => ?_
      simp [Requires, Typed, identifiers]
  | @literal mark base present =>
      rw [labels] at numbered located
      obtain ⟨rfl, rfl⟩ := numbered.of_singleton
      rw [events]
      refine Demands.congr (.leaf present (by simp)
        (demands_literal (Tree.isTyped_of_tag present rfl) base)) fun Var assignment => ?_
      simp [Requires, Typed, identifiers]
  | @unary mark operator operand present _ operandDemands =>
      rw [labels] at numbered located
      obtain ⟨operandNumbered, rfl⟩ := numbered.of_concat
      rw [List.forall_mem_append] at located
      have location := (located.2 mark (by simp)).exists_location present
      rw [events]
      refine Demands.congr (.around present (by simp) operandNumbered.le
        (operandDemands located.1 operandNumbered)
        (demands_unary (Tree.isTyped_of_tag present rfl) location operator
          operand.label.node)) fun Var assignment => ?_
      rw [Requires, Requires, Typed, identifiers]
      exact and_right_comm
  | @binary mark operator left right present _ _ leftDemands rightDemands =>
      rw [labels] at numbered located
      obtain ⟨operandsNumbered, rfl⟩ := numbered.of_concat
      obtain ⟨middle, leftNumbered, rightNumbered⟩ := operandsNumbered.of_append
      rw [List.forall_mem_append, List.forall_mem_append] at located
      have location := (located.2 mark (by simp)).exists_location present
      rw [events]
      refine Demands.congr (.around present (by simp)
        operandsNumbered.le
        ((leftDemands located.1.1 leftNumbered).append (rightDemands located.1.2 rightNumbered)
          leftNumbered.le rightNumbered.le)
        (demands_binary (Tree.isTyped_of_tag present rfl) location operator left.label.node
          right.label.node)) fun Var assignment => ?_
      simp only [Requires, Typed, identifiers, List.forall_mem_append]
      tauto
  | @call mark callee arguments header first present bounds run _ _ calleeDemands
      argumentsDemand =>
      rw [labels] at numbered located
      obtain ⟨partsNumbered, rfl⟩ := numbered.of_concat
      obtain ⟨middle, calleeNumbered, argumentsNumbered⟩ := partsNumbered.of_append
      rw [List.forall_mem_append, List.forall_mem_append] at located
      have location := (located.2 mark (by simp)).exists_location present
      have parts := Tree.callParts_eq_ok present (by simpa using bounds) run
      have argumentsWalked :
          ((arguments.map events).flatten.forM (step tree names)).Demands tree middle mark.node
            functions [] (arguments.map (·.label.node)).reverse
            (fun Var assignment =>
              ∀ argument ∈ arguments, argument.Requires names Var assignment) := by
        refine .flatten (fun argument => [argument.label.node]) argumentsNumbered
          (fun argument member start stop argumentNumbered => ?_)
          (by rw [← List.map_eq_flatMap, List.map_reverse])
        refine argumentsDemand argument member (fun mark markMember => ?_) argumentNumbered
        exact located.1.2 mark
          (List.mem_flatten_of_mem (List.mem_map_of_mem member) markMember)
      rw [events]
      refine Demands.congr (.around present (by simp) partsNumbered.le
        ((calleeDemands located.1.1 calleeNumbered).append argumentsWalked
          calleeNumbered.le argumentsNumbered.le)
        (demands_call (Tree.isTyped_of_tag present rfl) location parts)) fun Var assignment => ?_
      simp only [Requires, Typed, identifiers, List.forall_mem_append,
        List.forall_mem_flatten, List.forall_mem_map, List.map_map, Function.comp_def,
        imp_and, forall_and]
      tauto

/-- Walking through a whole expression demands the rules for its nodes. -/
theorem Whole.Holds.demands
    {whole : Whole Mark}
    (held : whole.Holds tree.nodes tree.extra)
    (located : ∀ mark ∈ whole.labels, tree.Locates mark)
    (numbered : Numbered start stop whole.labels) :
    (whole.events.forM (step tree names)).Demands tree start stop functions []
      [whole.label.node] (whole.Requires names) := by
  rw [labels] at numbered located
  obtain ⟨innerNumbered, rfl⟩ := numbered.of_concat
  rw [List.forall_mem_append] at located
  rw [events]
  refine Demands.congr (.around held.present (by simp)
    innerNumbered.le (held.innerHeld.demands located.1 innerNumbered)
    (demands_whole (Tree.isTyped_of_tag held.present rfl) whole.inner.label.node))
    fun Var assignment => ?_
  rw [Expression.Requires, Requires, Typed]
  exact and_right_comm

/-- Walking through statements in a row demands the rules for all of them. -/
theorem Statement.demands_flatten
    {statements : List (Statement Mark)}
    (numbered : Numbered start stop (statements.map labels).flatten)
    (located : ∀ mark ∈ (statements.map labels).flatten, tree.Locates mark)
    (each : ∀ statement ∈ statements, ∀ {start stop : Nat},
      (∀ mark ∈ statement.labels, tree.Locates mark) ->
        Numbered start stop statement.labels ->
          (statement.events.forM (step tree names)).Demands tree start stop functions [] []
            (statement.Requires names functions.head?)) :
    ((statements.map events).flatten.forM (step tree names)).Demands tree start stop functions []
      [] (fun Var assignment => ∀ statement ∈ statements,
        statement.Requires names functions.head? Var assignment) := by
  refine .flatten (fun _ => []) numbered
    (fun statement member start stop statementNumbered => ?_) (by simp)
  refine each statement member (fun mark markMember => ?_) statementNumbered
  exact located mark (List.mem_flatten_of_mem (List.mem_map_of_mem member) markMember)

/-- Walking through a block demands the rules for its statements. -/
theorem Statement.demands_block
    {mark : Mark}
    {left right : Nat}
    {statements : List (Statement Mark)}
    (present : tree.nodes[mark.node]? = some ⟨.block, mark.token, left, right⟩)
    (numbered : Numbered start mark.node (statements.map labels).flatten)
    (located : ∀ mark ∈ (statements.map labels).flatten, tree.Locates mark)
    (each : ∀ statement ∈ statements, ∀ {start stop : Nat},
      (∀ mark ∈ statement.labels, tree.Locates mark) ->
        Numbered start stop statement.labels ->
          (statement.events.forM (step tree names)).Demands tree start stop functions [] []
            (statement.Requires names functions.head?)) :
    ((Event.around mark.node (statements.map events).flatten).forM
        (step tree names)).Demands tree start (mark.node + 1) functions [] []
      (fun Var assignment => ∀ statement ∈ statements,
        statement.Requires names functions.head? Var assignment) := by
  refine Demands.congr (.around present (by simp) numbered.le
    (Statement.demands_flatten numbered located each)
    (.nothing (.noNode (Tree.not_isTyped_of_tag present rfl) (by simp)) functions []
          fun _ => rfl)) fun Var assignment => ?_
  rw [and_true]

/-- Identifiers in a row. -/
theorem Mark.demands_flatten
    {marks : List Mark}
    (present : ∀ mark ∈ marks, mark.IsIdentifier tree.nodes)
    (located : ∀ mark ∈ marks, tree.Locates mark)
    (numbered : Numbered start stop marks) :
    ((marks.map events).flatten.forM (step tree names)).Demands tree start stop functions []
      (marks.map node).reverse
      (fun Var assignment => ∀ mark ∈ marks, names.Shares mark.node Var assignment) := by
  have numbered : Numbered start stop (marks.map fun mark => [mark]).flatten := by
    rw [← List.flatMap_def, List.flatMap_singleton']
    exact numbered
  refine .flatten (fun mark => [mark.node]) numbered (fun mark member first last single => ?_)
    (by rw [← List.map_eq_flatMap, List.map_reverse])
  obtain ⟨rfl, rfl⟩ := single.of_singleton
  exact (present mark member).demands (located mark member)

/-- Walking through a statement demands the rules for its nodes. -/
theorem Statement.Holds.demands
    {statement : Statement Mark}
    (held : statement.Holds tree.nodes tree.extra)
    (small : tree.nodes.size ≤ Node.absent)
    (located : ∀ mark ∈ statement.labels, tree.Locates mark)
    (numbered : Numbered start stop statement.labels)
    (functions : List NodeId) :
    (statement.events.forM (step tree names)).Demands tree start stop functions [] []
      (statement.Requires names functions.head?) := by
  induction held generalizing start stop functions with
  | @binding mark name isConstant value present nameHeld valueHeld =>
      rw [labels] at numbered located
      obtain ⟨partsNumbered, rfl⟩ := numbered.of_concat
      obtain ⟨rfl, valueNumbered⟩ := partsNumbered.of_cons
      rw [List.forall_mem_append, List.forall_mem_cons] at located
      have location := (located.2 mark (by simp)).exists_location present
      have untyped := Tree.not_isTyped_of_tag present (by cases isConstant <;> rfl)
      rw [events]
      refine Demands.congr (.around present (by cases isConstant <;> simp [Tag.ofBinding])
        partsNumbered.le
        ((nameHeld.demands located.1.1).append (valueHeld.demands located.1.2 valueNumbered)
          (Nat.le_succ _) valueNumbered.le)
        (by cases isConstant <;> exact demands_binding location untyped _ _))
        fun Var assignment => ?_
      simp only [Requires, Whole.Requires, Typed, identifiers, List.forall_mem_cons]
      tauto
  | @assign mark target value present targetHeld valueHeld =>
      rw [labels] at numbered located
      obtain ⟨partsNumbered, rfl⟩ := numbered.of_concat
      obtain ⟨middle, targetNumbered, valueNumbered⟩ := partsNumbered.of_append
      rw [List.forall_mem_append, List.forall_mem_append] at located
      have location := (located.2 mark (by simp)).exists_location present
      rw [events]
      refine Demands.congr (.around present (by simp) partsNumbered.le
        ((targetHeld.demands located.1.1 targetNumbered).append
          (valueHeld.demands located.1.2 valueNumbered) targetNumbered.le valueNumbered.le)
        (demands_binding location (Tree.not_isTyped_of_tag present rfl) target.label.node
          value.label.node)) fun Var assignment => ?_
      simp only [Requires, Whole.Requires, Typed, identifiers, List.forall_mem_append]
      tauto
  | @evaluate mark expression present expressionHeld =>
      rw [labels] at numbered located
      obtain ⟨expressionNumbered, rfl⟩ := numbered.of_concat
      rw [List.forall_mem_append] at located
      rw [events]
      refine Demands.congr (.around present (by simp)
        expressionNumbered.le (expressionHeld.demands located.1 expressionNumbered)
        (demands_evaluate (Tree.not_isTyped_of_tag present rfl) expression.label.node))
        fun Var assignment => ?_
      simp only [Requires, Whole.Requires, Typed, identifiers, and_true]
  | @«return» mark value present valueHeld =>
      rw [labels] at numbered located
      obtain ⟨valueNumbered, rfl⟩ := numbered.of_concat
      rw [List.forall_mem_append] at located
      have location := (located.2 mark (by simp)).exists_location present
      have read := Tree.returnValue_eq_ok present valueHeld small
      rw [events]
      cases value with
      | none =>
          obtain rfl : start = mark.node := valueNumbered.1
          refine Demands.congr (.leaf present (by simp)
            (.nothing (.noNode (Tree.not_isTyped_of_tag present rfl) (by simp)) functions []
          fun _ => (bind_eq (lift_eq read _)).trans rfl))
            fun Var assignment => ?_
          simp [Requires, Typed, identifiers]
      | some whole =>
          rw [Option.toList_some, List.map_singleton, List.flatten_singleton]
          refine Demands.congr (.around present (by simp)
            valueNumbered.le ((valueHeld whole rfl).demands located.1 valueNumbered)
            (demands_return location (Tree.not_isTyped_of_tag present rfl) read))
            fun Var assignment => ?_
          simp only [Requires, Whole.Requires, Typed, identifiers, Option.mem_def,
            Option.some.injEq, forall_eq', Option.toList_some, List.map_singleton,
            List.flatten_singleton]
          exact and_right_comm
  | @block mark statements first present run _ statementsDemand =>
      rw [labels] at numbered located
      obtain ⟨statementsNumbered, rfl⟩ := numbered.of_concat
      rw [List.forall_mem_append] at located
      rw [events]
      refine (Statement.demands_block present statementsNumbered located.1
        fun statement member _ _ located numbered =>
          statementsDemand statement member located numbered functions).congr
        fun Var assignment => ?_
      simp only [Requires, Typed, identifiers, List.forall_mem_flatten, List.forall_mem_map,
        imp_and, forall_and]
  | @function mark name bodyMark parameters body header first bodyFirst present bounds
      run nameHeld parametersHeld bodyPresent bodyRun _ bodyDemands =>
      rw [labels] at numbered located
      obtain ⟨partsNumbered, rfl⟩ := numbered.of_concat
      obtain ⟨middle, namesNumbered, blockNumbered⟩ := partsNumbered.of_append
      obtain ⟨rfl, parametersNumbered⟩ := namesNumbered.of_cons
      obtain ⟨bodyNumbered, same⟩ := blockNumbered.of_concat
      rw [List.forall_mem_append, List.forall_mem_append, List.forall_mem_append,
        List.forall_mem_cons] at located
      have location := (located.2 mark (by simp)).exists_location present
      have parts := Tree.functionParts_eq_ok present (by simpa using bounds) run
      -- Returns in the body look at the function itself, which is now the innermost one.
      have bodyWalked := Statement.demands_block bodyPresent bodyNumbered located.1.2.1
        fun statement member _ _ located numbered =>
          bodyDemands statement member located numbered (mark.node :: functions)
      rw [same] at bodyWalked
      rw [events]
      refine Demands.congr (.function present location parts partsNumbered.le
        (((nameHeld.demands located.1.1.1).append
          (Mark.demands_flatten parametersHeld located.1.1.2 parametersNumbered)
            (Nat.le_succ _) parametersNumbered.le).append bodyWalked namesNumbered.le
              blockNumbered.le)) fun Var assignment => ?_
      simp only [Requires, Typed, identifiers, List.forall_mem_flatten, List.forall_mem_map,
        List.forall_mem_append, List.forall_mem_cons, List.map_map, Function.comp_def,
        List.head?_cons, imp_and, forall_and]
      tauto

end Phrases

end Frontend
