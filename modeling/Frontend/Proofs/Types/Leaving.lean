import Frontend.Proofs.Syntax.Reaching
import Frontend.Proofs.Types.Steps
import Frontend.Proofs.Types.Walking

/-!
# Leaving a node

From every state that the steps keep sound, whatever is on the stack, leaving a node takes
the types of its operands and puts the type of an expression in their place. At most one
clash is reported, at the node. Where the outcome of a unification is thrown away, one of
the types is new, so that it is no clash.
-/

namespace Frontend

/-- The tags of nodes whose operands may have types that clash. -/
def Tag.mayClash : Tag -> Bool
  | .unary .addressOf => false
  | .unary _ | .binary _ | .call | .constant | .mutable | .assign | .return | .function => true
  | .root | .block | .evaluate | .expression | .identifier | .literal _ => false

/-- Nothing is reported if two types agree. Otherwise it is one clash, at the node. -/
inductive Tree.Reports (tree : Tree) (node : NodeId) (before : Array Diagnostic) :
    Bool -> Array Diagnostic -> Prop
  | agreed : Reports tree node before true before
  | clashed {diagnostic : Diagnostic} :
      diagnostic.IsMismatch -> tree.location node = .ok diagnostic.location ->
        Reports tree node before false (before.push diagnostic)

/-- What leaving a node does. Its own type, if it has one, comes before the rest of the
stack. The result type of a function goes. -/
structure Inference.Leaves
    (tree : Tree)
    (node : NodeId)
    (tag : Tag)
    (rest : List TypeId)
    (before after : Inference) : Prop where
  operands : ∃ own : Option TypeId, own.isSome = tag.isTyped ∧
    after.operands = own.toList ++ rest ∧
      after.nodeTypes = own.elim before.nodeTypes (before.nodeTypes.insert node)
  results : after.results = if tag = .function then before.results.tail else before.results
  reports : ∃ agreed, tree.Reports node before.diagnostics agreed after.diagnostics ∧
    (agreed = false -> tag.mayClash = true)

namespace Infer

/-- The rules of the steps that throw outcomes away. What is thrown away is no clash: a type
of which nothing is known yet agrees with every other. -/
inductive DropsNoClash (tree : Tree) (names : NameTable) (node : NodeId) :
    Tag -> Inference -> Inference -> Prop
  | literal
      {kind : BaseType}
      {id literalType : TypeId}
      {before made asked unified after : Inference} :
      fresh node before = .ok (id, made) ->
      base kind made = .ok (literalType, asked) ->
      unify id literalType asked = .ok (.ok (), unified) ->
      push node id unified = .ok ((), after) ->
        DropsNoClash tree names node (.literal kind) before after
  | unnamed {id : TypeId} {before made after : Inference} :
      names.name? node = none ->
      fresh node before = .ok (id, made) ->
      push node id made = .ok ((), after) ->
        DropsNoClash tree names node .identifier before after
  | firstOccurrence {name : QualifiedName} {id : TypeId} {before made after : Inference} :
      names.name? node = some name ->
      fresh node before = .ok (id, made) ->
      made.nameTypes[name]? = none ->
      push node id { made with nameTypes := made.nameTypes.insert name id } = .ok ((), after) ->
        DropsNoClash tree names node .identifier before after
  | laterOccurrence
      {name : QualifiedName}
      {id nameType : TypeId}
      {before made unified after : Inference} :
      names.name? node = some name ->
      fresh node before = .ok (id, made) ->
      made.nameTypes[name]? = some nameType ->
      unifyAt tree node id nameType made = .ok (true, unified) ->
      push node id unified = .ok ((), after) ->
        DropsNoClash tree names node .identifier before after
  | arithmetic
      {operator : BinaryOperator}
      {agreed : Bool}
      {left right result : TypeId}
      {before popped bothPopped compared made unified after : Inference} :
      operator ∈ [.add, .sub, .mul, .div] ->
      pop before = .ok (right, popped) ->
      pop popped = .ok (left, bothPopped) ->
      unifyAt tree node left right bothPopped = .ok (agreed, compared) ->
      fresh node compared = .ok (result, made) ->
      unify result left made = .ok (.ok (), unified) ->
      push node result unified = .ok ((), after) ->
        DropsNoClash tree names node (.binary operator) before after
  | comparison
      {operator : BinaryOperator}
      {agreed : Bool}
      {left right truth result : TypeId}
      {before popped bothPopped asked compared checked made unified after : Inference} :
      operator ∉ [.add, .sub, .mul, .div] ->
      pop before = .ok (right, popped) ->
      pop popped = .ok (left, bothPopped) ->
      base .bool bothPopped = .ok (truth, asked) ->
      unifyAt tree node left right asked = .ok (agreed, compared) ->
      (if agreed then discard (unifyAt tree node left truth) else pure ()) compared =
        .ok ((), checked) ->
      fresh node checked = .ok (result, made) ->
      unify result truth made = .ok (.ok (), unified) ->
      push node result unified = .ok ((), after) ->
        DropsNoClash tree names node (.binary operator) before after

/-- The rules are those of leaving a node. -/
theorem DropsNoClash.leaveAs_eq
    {tree : Tree}
    {names : NameTable}
    {node : NodeId}
    {tag : Tag}
    {before after : Inference}
    (drops : DropsNoClash tree names node tag before after) :
    leaveAs tree names node tag before = .ok ((), after) := by
  cases drops with
  | literal made asked unified pushed =>
      rw [leaveAs, Infer.literal, bind_eq made, bind_eq asked, bind_eq (discard_eq unified), pushed]
  | unnamed named made pushed =>
      rw [leaveAs, identifier, bind_eq made, named]
      exact pushed
  | firstOccurrence named made untyped pushed =>
      rw [leaveAs, identifier, bind_eq made, named]
      dsimp only
      rw [bind_eq (get_eq _)]
      simp only [untyped]
      exact pushed
  | laterOccurrence named made typed unified pushed =>
      rw [leaveAs, identifier, bind_eq made, named]
      dsimp only
      rw [bind_eq (get_eq _)]
      simp only [typed]
      rw [bind_eq (discard_eq unified), pushed]
  | @arithmetic operator _ _ _ _ _ _ _ _ _ _ _ isArithmetic right left compared made unified
      pushed =>
      have binary : binary tree node operator = Infer.arithmetic tree node := by
        simp only [List.mem_cons, List.not_mem_nil, or_false] at isArithmetic
        rcases isArithmetic with rfl | rfl | rfl | rfl
        all_goals rfl
      rw [leaveAs, binary, Infer.arithmetic, bind_eq right, bind_eq left,
        bind_eq (discard_eq compared), bind_eq made, bind_eq (discard_eq unified), pushed]
  | @comparison operator agreed _ _ _ _ _ _ _ _ _ _ _ _ _ notArithmetic right left asked
      compared checked made unified pushed =>
      have binary : binary tree node operator = Infer.comparison tree node := by
        cases operator with
        | add | sub | mul | div => simp at notArithmetic
        | _ => rfl
      rw [leaveAs, binary, Infer.comparison, bind_eq right, bind_eq left, bind_eq asked,
        bind_eq compared]
      cases agreed with
      | false =>
          cases checked
          rw [if_neg (by simp)]
          dsimp only
          rw [bind_eq made, bind_eq (discard_eq unified), pushed]
      | true =>
          rw [if_pos rfl] at checked ⊢
          rw [bind_eq checked]
          dsimp only
          rw [bind_eq made, bind_eq (discard_eq unified), pushed]

end Infer

/-! ## Types that agree -/

namespace TypeGraph.WellFormed

variable {graph : TypeGraph} (wellFormed : graph.WellFormed)

include wellFormed

/-- A new type agrees with a base type that is asked for after it. -/
theorem exists_unify_base (node : Option NodeId) (kind : BaseType) :
    ∃ coarse, Unifier.unify (graph.fresh node).1 ((graph.fresh node).2.base kind).1
      ((graph.fresh node).2.base kind).2 = .ok () coarse := by
  have made := wellFormed.provides_fresh node
  have asked := made.wellFormed.provides_base kind
  have bound := Nat.lt_of_lt_of_le made.lt_size asked.grows.size_le
  suffices solvable : ∃ trees : TypeId -> TypeTree Empty,
      ((graph.fresh node).2.base kind).2.Solves trees ∧
        trees (graph.fresh node).1 = trees ((graph.fresh node).2.base kind).1 by
    obtain ⟨coarse, unified, -⟩ := asked.wellFormed.exists_unify bound asked.lt_size solvable
    exact ⟨coarse, unified⟩
  obtain ⟨trees, solves⟩ := wellFormed.exists_solves Empty
  obtain ⟨more, moreSolve, -, given⟩ := wellFormed.free_fresh node trees (.base kind) solves
  obtain ⟨most, mostSolve, same, -⟩ := asked.grows.exists_solves made.wellFormed
    asked.wellFormed moreSolve (.base kind)
  refine ⟨most, mostSolve, ?_⟩
  rw [mostSolve.layer _ _ asked.layer, same _ made.lt_size, given]
  rfl

end TypeGraph.WellFormed

namespace Infer

variable
  {tree : Tree}
  {names : NameTable}
  {node : NodeId}
  {tag : Tag}
  {rest : List TypeId}
  {before : Inference}

theorem fresh_eq (before : Inference) :
    fresh node before =
      .ok ((before.graph.fresh (some node)).1,
        { before with graph := (before.graph.fresh (some node)).2 }) :=
  rfl

theorem base_eq (kind : BaseType) (before : Inference) :
    base kind before =
      .ok ((before.graph.base kind).1, { before with graph := (before.graph.base kind).2 }) :=
  rfl

theorem pointer_eq (pointee : TypeId) (before : Inference) :
    pointer pointee before =
      .ok ((before.graph.pointer pointee).1,
        { before with graph := (before.graph.pointer pointee).2 }) :=
  rfl

theorem function_eq (subtypes : List TypeId) (before : Inference) :
    function subtypes before =
      .ok ((before.graph.function subtypes).1,
        { before with graph := (before.graph.function subtypes).2 }) :=
  rfl

/-- Two types that exist are made the same, or reported. -/
theorem exists_unifyAt_or_reports
    (before : Inference)
    (wellFormed : before.graph.WellFormed)
    {left right : TypeId}
    (leftExists : left < before.graph.repository.size)
    (rightExists : right < before.graph.repository.size)
    (located : ∃ location, tree.location node = .ok location) :
    ∃ agreed graph diagnostics,
      unifyAt tree node left right before = .ok (agreed, { before with graph, diagnostics }) ∧
        tree.Reports node before.diagnostics agreed diagnostics ∧ graph.WellFormed ∧
        graph.repository = before.graph.repository ∧
        (agreed = true -> graph.Same left right) := by
  have settles := Unifier.settles_unify wellFormed leftExists rightExists
  match result : Unifier.unify left right before.graph, settles with
  | .ok _ coarse, ⟨wellFormed, coarsens, joins, _⟩ =>
      exact ⟨true, coarse, _, unifyAt_eq result, .agreed, wellFormed, coarsens.repository,
        fun _ => coarse.joins_singleton left right |>.mp joins⟩
  | .error (.failed _) coarse, ⟨wellFormed, coarsens, _⟩ =>
      have sameTypes := coarsens.repository
      obtain ⟨_, isMismatch, atNode, reported⟩ :=
        exists_unifyAt_of_failed result wellFormed (sameTypes ▸ leftExists)
          (sameTypes ▸ rightExists) located
      exact ⟨false, coarse, _, reported, .clashed isMismatch atNode, wellFormed, sameTypes,
        by simp⟩

/-! ## Leaving a node -/

/-- The node gets a type, which takes the place of its operands. -/
theorem leaves_typed
    (before : Inference)
    {agreed : Bool}
    {diagnostics : Array Diagnostic}
    (isTyped : tag.isTyped = true)
    (reports : tree.Reports node before.diagnostics agreed diagnostics)
    (mayClash : agreed = false -> tag.mayClash = true)
    (graph : TypeGraph)
    (nameTypes : Std.HashMap QualifiedName TypeId)
    (rest : List TypeId)
    (id : TypeId) :
    before.Leaves tree node tag rest
      { before with
        graph
        nameTypes
        diagnostics
        nodeTypes := before.nodeTypes.insert node id
        operands := id :: rest } where
  operands := ⟨some id, by simp [isTyped], rfl, rfl⟩
  results := by
    rw [if_neg]
    rintro rfl
    cases isTyped
  reports := ⟨agreed, reports, mayClash⟩

/-- The node only takes its operands. -/
theorem leaves_untyped
    (before : Inference)
    {agreed : Bool}
    {diagnostics : Array Diagnostic}
    (untyped : tag.isTyped = false)
    (notFunction : tag ≠ .function)
    (reports : tree.Reports node before.diagnostics agreed diagnostics)
    (mayClash : agreed = false -> tag.mayClash = true)
    (graph : TypeGraph)
    (rest : List TypeId) :
    before.Leaves tree node tag rest
      { before with graph, diagnostics, operands := rest } where
  operands := ⟨none, by simp [untyped], rfl, rfl⟩
  results := by rw [if_neg notFunction]
  reports := ⟨agreed, reports, mayClash⟩

section Leaves

variable (sound : before.Sound)

include sound

theorem exists_literal (kind : BaseType) :
    ∃ after, DropsNoClash tree names node (.literal kind) before after ∧
      before.Leaves tree node (.literal kind) before.operands after := by
  obtain ⟨coarse, unified⟩ := sound.reachable.wellFormed.exists_unify_base (some node) kind
  exact ⟨_, .literal rfl rfl (unify_eq unified) rfl, leaves_typed before rfl .agreed (by simp) ..⟩

theorem exists_identifier :
    ∃ after, DropsNoClash tree names node .identifier before after ∧
      before.Leaves tree node .identifier before.operands after := by
  cases named : names.name? node with
  | none => exact ⟨_, .unnamed named rfl rfl, leaves_typed before rfl .agreed (by simp) ..⟩
  | some name =>
      cases known : before.nameTypes[name]? with
      | none =>
          exact ⟨_, .firstOccurrence named rfl known rfl,
            leaves_typed before rfl .agreed (by simp) ..⟩
      | some nameType =>
          obtain ⟨coarse, unified, -⟩ := sound.reachable.wellFormed.exists_unify_fresh (some node)
            (sound.nameTypes name nameType known)
          exact ⟨_, .laterOccurrence named rfl known (unifyAt_eq unified) rfl,
            leaves_typed before rfl .agreed (by simp) ..⟩

variable (located : ∃ location, tree.location node = .ok location)

include located

theorem exists_arithmetic
    {operator : BinaryOperator}
    (isArithmetic : operator ∈ [.add, .sub, .mul, .div])
    {left right : TypeId}
    (stacked : before.operands = right :: left :: rest) :
    ∃ after, DropsNoClash tree names node (.binary operator) before after ∧
      before.Leaves tree node (.binary operator) rest after := by
  have bounds := sound.operands
  simp only [stacked, List.forall_mem_cons] at bounds
  obtain ⟨rightExists, leftExists, -⟩ := bounds
  obtain ⟨agreed, graph, diagnostics, compared, reports, wellFormed, sameTypes, -⟩ :=
    exists_unifyAt_or_reports { before with operands := rest } sound.reachable.wellFormed
      leftExists rightExists located
  obtain ⟨coarse, unified, -⟩ :=
    wellFormed.exists_unify_fresh (some node) (sameTypes ▸ leftExists)
  exact ⟨_, .arithmetic isArithmetic (pop_eq stacked) (pop_eq rfl) compared rfl
    (unify_eq unified) rfl, leaves_typed before rfl reports (fun _ => rfl) ..⟩

/-- Both operands are compared, and then with a truth value, unless they clash. -/
theorem exists_comparison
    {operator : BinaryOperator}
    (notArithmetic : operator ∉ [.add, .sub, .mul, .div])
    {left right : TypeId}
    (stacked : before.operands = right :: left :: rest) :
    ∃ after, DropsNoClash tree names node (.binary operator) before after ∧
      before.Leaves tree node (.binary operator) rest after := by
  have bounds := sound.operands
  simp only [stacked, List.forall_mem_cons] at bounds
  obtain ⟨rightExists, leftExists, -⟩ := bounds
  have asked := sound.reachable.wellFormed.provides_base .bool
  have leftStays := Nat.lt_of_lt_of_le leftExists asked.grows.size_le
  obtain ⟨agreed, first, diagnostics, compared, reports, wellFormed, sameTypes, -⟩ :=
    exists_unifyAt_or_reports
      { before with operands := rest, graph := (before.graph.base .bool).2 } asked.wellFormed
      leftStays (Nat.lt_of_lt_of_le rightExists asked.grows.size_le) located
  cases agreed with
  | false =>
      -- After a clash, the operands are not compared with the truth value.
      obtain ⟨coarse, unified, -⟩ :=
        wellFormed.exists_unify_fresh (some node) (sameTypes ▸ asked.lt_size)
      exact ⟨_, .comparison notArithmetic (pop_eq stacked) (pop_eq rfl) rfl compared rfl rfl
        (unify_eq unified) rfl, leaves_typed before rfl reports (fun _ => rfl) ..⟩
  | true =>
      obtain ⟨checked, second, others, checkedRan, moreReports, secondWellFormed, stillSame, -⟩ :=
        exists_unifyAt_or_reports
          { before with operands := rest, graph := first, diagnostics } wellFormed
          (sameTypes ▸ leftStays) (sameTypes ▸ asked.lt_size) located
      obtain ⟨coarse, unified, -⟩ := secondWellFormed.exists_unify_fresh (some node)
        (stillSame ▸ sameTypes ▸ asked.lt_size)
      cases reports
      exact ⟨_, .comparison notArithmetic (pop_eq stacked) (pop_eq rfl) rfl compared
        (discard_eq checkedRan) rfl (unify_eq unified) rfl,
        leaves_typed before rfl moreReports (fun _ => rfl) ..⟩

theorem exists_binary
    (operator : BinaryOperator)
    {left right : TypeId}
    (stacked : before.operands = right :: left :: rest) :
    ∃ after, DropsNoClash tree names node (.binary operator) before after ∧
      before.Leaves tree node (.binary operator) rest after := by
  by_cases isArithmetic : operator ∈ [.add, .sub, .mul, .div]
  · exact exists_arithmetic sound located isArithmetic stacked
  · exact exists_comparison sound located isArithmetic stacked

/-- A sign or a negation, with the base type of its operand. -/
theorem exists_sameAsOperand
    (isTyped : tag.isTyped = true)
    (mayClash : tag.mayClash = true)
    (kind : BaseType)
    {operand : TypeId}
    (stacked : before.operands = operand :: rest) :
    ∃ after, unary.sameAsOperand tree node kind before = .ok ((), after) ∧
      before.Leaves tree node tag rest after := by
  have exists_operand := sound.operands operand (by simp [stacked])
  have asked := sound.reachable.wellFormed.provides_base kind
  obtain ⟨agreed, graph, diagnostics, ran, reports, -, -⟩ :=
    exists_unifyAt_or_reports
      { before with operands := rest, graph := (before.graph.base kind).2 } asked.wellFormed
      (Nat.lt_of_lt_of_le exists_operand asked.grows.size_le) asked.lt_size located
  refine ⟨_, ?_, leaves_typed before isTyped reports (fun _ => mayClash) graph before.nameTypes
    rest operand⟩
  rw [unary.sameAsOperand, bind_eq (pop_eq stacked), bind_eq (base_eq kind _),
    bind_eq (discard_eq ran)]
  rfl

theorem exists_unary
    (operator : UnaryOperator)
    {operand : TypeId}
    (stacked : before.operands = operand :: rest) :
    ∃ after, unary tree node operator before = .ok ((), after) ∧
      before.Leaves tree node (.unary operator) rest after := by
  cases operator with
  | plus | negate => exact exists_sameAsOperand sound located rfl rfl .int stacked
  | not => exact exists_sameAsOperand sound located rfl rfl .bool stacked
  | addressOf =>
      refine ⟨_, ?_, leaves_typed before rfl .agreed (by simp)
        (before.graph.pointer operand).2 before.nameTypes rest (before.graph.pointer operand).1⟩
      rw [unary, bind_eq (pop_eq stacked)]
      rfl
  | dereference =>
      have exists_operand := sound.operands operand (by simp [stacked])
      have made := sound.reachable.wellFormed.provides_fresh (some node)
      have pointed := made.wellFormed.provides_pointer _ made.lt_size
      have stays := Nat.lt_of_lt_of_le exists_operand
        (Nat.le_trans made.grows.size_le pointed.grows.size_le)
      obtain ⟨agreed, graph, diagnostics, ran, reports, -, -⟩ :=
        exists_unifyAt_or_reports
          { before with
            operands := rest
            graph := ((before.graph.fresh (some node)).2.pointer
              (before.graph.fresh (some node)).1).2 }
          pointed.wellFormed stays pointed.lt_size located
      refine ⟨_, ?_, leaves_typed before rfl reports (fun _ => rfl) graph before.nameTypes rest
        (before.graph.fresh (some node)).1⟩
      rw [unary, bind_eq (pop_eq stacked), bind_eq (fresh_eq _), bind_eq (pointer_eq _ _),
        bind_eq (discard_eq ran)]
      rfl

theorem exists_call
    {parts : CallParts}
    (partsRead : tree.callParts node = .ok parts)
    {callee : TypeId}
    {arguments : List TypeId}
    (count : arguments.length = parts.arguments.length)
    (stacked : before.operands = arguments.reverse ++ callee :: rest) :
    ∃ after, call tree node before = .ok ((), after) ∧
      before.Leaves tree node .call rest after := by
  have bounds := sound.operands
  rw [stacked, List.forall_mem_append, List.forall_mem_cons] at bounds
  obtain ⟨argumentsExist, calleeExists, -⟩ := bounds
  have made := sound.reachable.wellFormed.provides_fresh (some node)
  have signed := made.wellFormed.provides_function
    (arguments ++ [(before.graph.fresh (some node)).1]) (by
      intro part member
      rcases List.mem_append.mp member with argument | result
      · exact Nat.lt_of_lt_of_le (argumentsExist part (List.mem_reverse.mpr argument))
          made.grows.size_le
      · exact List.mem_singleton.mp result ▸ made.lt_size)
  have stays := Nat.lt_of_lt_of_le calleeExists
    (Nat.le_trans made.grows.size_le signed.grows.size_le)
  obtain ⟨agreed, graph, diagnostics, ran, reports, -, -⟩ :=
    exists_unifyAt_or_reports
      { before with
        operands := rest
        graph := ((before.graph.fresh (some node)).2.function
          (arguments ++ [(before.graph.fresh (some node)).1])).2 }
      signed.wellFormed stays signed.lt_size located
  refine ⟨_, ?_, leaves_typed before rfl reports (fun _ => rfl) graph before.nameTypes rest
    (before.graph.fresh (some node)).1⟩
  rw [call, bind_eq (lift_eq partsRead _), ← count, bind_eq (popMany_eq stacked),
    bind_eq (pop_eq rfl), bind_eq (fresh_eq _), bind_eq (function_eq _ _),
    bind_eq (discard_eq ran)]
  rfl

theorem exists_binding
    (isBinding : tag ∈ [.constant, .mutable, .assign])
    {target value : TypeId}
    (stacked : before.operands = value :: target :: rest) :
    ∃ after, binding tree node before = .ok ((), after) ∧
      before.Leaves tree node tag rest after := by
  have bounds := sound.operands
  simp only [stacked, List.forall_mem_cons] at bounds
  obtain ⟨valueExists, targetExists, -⟩ := bounds
  obtain ⟨agreed, graph, diagnostics, ran, reports, -, -⟩ :=
    exists_unifyAt_or_reports { before with operands := rest } sound.reachable.wellFormed
      targetExists valueExists located
  have leaves : before.Leaves tree node tag rest
      { before with graph, diagnostics, operands := rest } := by
    simp only [List.mem_cons, List.not_mem_nil, or_false] at isBinding
    rcases isBinding with rfl | rfl | rfl
    all_goals exact leaves_untyped before rfl (by simp) reports (fun _ => rfl) graph rest
  refine ⟨_, ?_, leaves⟩
  rw [binding, bind_eq (pop_eq stacked), bind_eq (pop_eq rfl), discard_eq ran]

omit sound located in
/-- The value of a return is unified with the result of the function around it. -/
theorem returnStatement_eq
    {value : NodeId}
    (valueRead : tree.returnValue node = .ok (some value))
    {id result : TypeId}
    (stacked : before.operands = id :: rest)
    (around : before.results.head? = some result) :
    returnStatement tree node before =
      discard (unifyAt tree node id result) { before with operands := rest } := by
  rw [returnStatement, bind_eq (lift_eq valueRead _), Option.isSome_some, if_pos rfl,
    bind_eq (pop_eq stacked), bind_eq (get_eq _)]
  simp only [around]

theorem exists_returnStatement
    {value : NodeId}
    (valueRead : tree.returnValue node = .ok (some value))
    {id : TypeId}
    (stacked : before.operands = id :: rest) :
    ∃ after, returnStatement tree node before = .ok ((), after) ∧
      before.Leaves tree node .return rest after := by
  cases around : before.results.head? with
  | none =>
      refine ⟨_, ?_, leaves_untyped before rfl (by simp) .agreed (by simp) before.graph rest⟩
      rw [returnStatement, bind_eq (lift_eq valueRead _), Option.isSome_some, if_pos rfl,
        bind_eq (pop_eq stacked), bind_eq (get_eq _)]
      simp only [around]
      rfl
  | some result =>
      obtain ⟨agreed, graph, diagnostics, ran, reports, -, -⟩ :=
        exists_unifyAt_or_reports { before with operands := rest } sound.reachable.wellFormed
          (sound.operands id (by simp [stacked]))
          (sound.results result (List.mem_of_mem_head? around)) located
      exact ⟨_, (returnStatement_eq valueRead stacked around).trans (discard_eq ran),
        leaves_untyped before rfl (by simp) reports (fun _ => rfl) graph rest⟩

/-- A function takes its own result type away. -/
theorem exists_functionDeclaration_leaves
    {parts : FunctionParts}
    (partsRead : tree.functionParts node = .ok parts)
    {name : TypeId}
    {parameters : List TypeId}
    (count : parameters.length = parts.parameters.length)
    (stacked : before.operands = parameters.reverse ++ name :: rest)
    (opened : before.results ≠ []) :
    ∃ after, functionDeclaration tree node before = .ok ((), after) ∧
      before.Leaves tree node .function rest after := by
  obtain ⟨result, results, open_eq⟩ := List.exists_cons_of_ne_nil opened
  have bounds := sound.operands
  rw [stacked, List.forall_mem_append, List.forall_mem_cons] at bounds
  obtain ⟨parametersExist, nameExists, -⟩ := bounds
  have resultExists := sound.results result (by simp [open_eq])
  have signed := sound.reachable.wellFormed.provides_function (parameters ++ [result]) (by
    intro part member
    rcases List.mem_append.mp member with parameter | last
    · exact parametersExist part (List.mem_reverse.mpr parameter)
    · exact List.mem_singleton.mp last ▸ resultExists)
  obtain ⟨agreed, graph, diagnostics, ran, reports, -, -⟩ :=
    exists_unifyAt_or_reports
      { before with
        operands := rest
        results
        graph := (before.graph.function (parameters ++ [result])).2 }
      signed.wellFormed (Nat.lt_of_lt_of_le nameExists signed.grows.size_le) signed.lt_size
      located
  refine ⟨{ before with operands := rest, results, graph, diagnostics }, ?_,
    ⟨none, rfl, rfl, rfl⟩, by simp [open_eq], agreed, reports, fun _ => rfl⟩
  rw [functionDeclaration, bind_eq (lift_eq partsRead _), ← count, bind_eq (popMany_eq stacked),
    bind_eq (pop_eq rfl), bind_eq (get_eq _)]
  simp only [open_eq]
  refine (bind_eq rfl).trans ?_
  rw [bind_eq (function_eq _ _), discard_eq ran]

end Leaves

end Infer

/-! ## Nodes of an outline -/

/-- The tags of nodes at which the outcome of a unification is thrown away. -/
def Tag.dropsOutcome : Tag -> Bool
  | .literal _ | .identifier | .binary _ => true
  | _ => false

theorem Tag.countP_isTyped_of_isOperand
    {tags : List Tag}
    (operands : ∀ tag ∈ tags, tag.isOperand = true) :
    tags.countP Tag.isTyped = tags.length := by
  rw [List.countP_eq_length]
  intro tag member
  have isOperand := operands tag member
  cases tag <;> simp_all [Tag.isOperand, Tag.isTyped]

namespace Outline

variable {outline : Outline Mark}

/-- How many children have a type. -/
def arity (outline : Outline Mark) : Nat :=
  (outline.children.map tag).countP Tag.isTyped

theorem arity_eq_length
    (operands : ∀ kind ∈ outline.children.map tag, kind.isOperand = true) :
    outline.arity = (outline.children.map (·.label.node)).length := by
  rw [arity, Tag.countP_isTyped_of_isOperand operands, List.length_map, List.length_map]

/-- Statements have no type. -/
theorem arity_eq_zero
    (statements : ∀ kind ∈ outline.children.map tag, kind.isStatement = true) :
    outline.arity = 0 := by
  rw [arity, List.countP_eq_zero]
  intro kind member
  have isStatement := statements kind member
  cases kind <;> simp_all [Tag.isStatement, Tag.isTyped]

/-- The name and the parameters of a function have types, and its body has none. -/
theorem arity_add_one
    {parameters : Nat}
    (kinds : outline.children.map tag =
      .identifier :: List.replicate parameters .identifier ++ [.block]) :
    outline.arity + 1 = (outline.children.map (·.label.node)).length := by
  have length := congrArg List.length kinds
  rw [List.length_map] at length ⊢
  rw [arity, kinds, length]
  simp [List.countP_cons, List.countP_append, List.countP_replicate, Tag.isTyped]

end Outline

section Leave

variable
  {tree : Tree}
  {names : NameTable}
  {outline : Outline Mark}
  {before : Inference}
  {taken rest : List TypeId}

open Infer

/-- The first of some types that came last. -/
theorem exists_reverse_append
    {count : Nat}
    (length : taken.length = count + 1) :
    ∃ (first : TypeId) (later : List TypeId),
      later.length = count ∧ taken = later.reverse ++ [first] := by
  have reversed : taken.reverse.length = count + 1 := by simpa using length
  obtain ⟨first, later, reversed⟩ := List.exists_cons_of_length_eq_add_one reversed
  refine ⟨first, later, ?_, ?_⟩
  · have lengths := congrArg List.length reversed
    simp only [List.length_reverse, List.length_cons, length] at lengths
    omega
  · rw [← List.reverse_reverse taken, reversed, List.reverse_cons]

/-- Leaving a node takes one type for each child that has one. -/
theorem Outline.Stands.exists_leave
    (stands : outline.Stands tree)
    (sound : before.Sound)
    (stacked : before.operands = taken ++ rest)
    (count : taken.length = outline.arity)
    (opened : outline.tag = .function -> before.results ≠ []) :
    ∃ after, leave tree names outline.label.node before = .ok ((), after) ∧
      before.Leaves tree outline.label.node outline.tag rest after ∧
      (outline.tag.dropsOutcome = true ->
        DropsNoClash tree names outline.label.node outline.tag before after) := by
  obtain ⟨left, right, present⟩ := stands.present
  have located := stands.located.exists_location present
  have read := stands.children
  have fits := stands.fits
  simp only [Tree.children, Tree.node_eq_ok present, bind, Except.bind] at read
  rw [Outline.Fits] at fits
  rw [leave_eq present]
  -- The tag says how many of the children have a type, and so how many types are taken.
  cases tagged : outline.tag with
  | root | block =>
      rw [tagged] at fits
      obtain rfl := List.length_eq_zero_iff.mp (count.trans (arity_eq_zero fits))
      obtain rfl : before.operands = rest := stacked
      exact ⟨before, rfl, leaves_untyped before rfl (by simp) .agreed (by simp) before.graph _,
        by simp [Tag.dropsOutcome]⟩
  | literal kind =>
      rw [tagged] at fits
      obtain rfl := List.length_eq_zero_iff.mp (count.trans (by rw [arity, fits]; rfl))
      obtain rfl : before.operands = rest := stacked
      obtain ⟨after, drops, leaves⟩ := exists_literal sound kind
      exact ⟨after, drops.leaveAs_eq, leaves, fun _ => drops⟩
  | identifier =>
      rw [tagged] at fits
      obtain rfl := List.length_eq_zero_iff.mp (count.trans (by rw [arity, fits]; rfl))
      obtain rfl : before.operands = rest := stacked
      obtain ⟨after, drops, leaves⟩ := exists_identifier sound
      exact ⟨after, drops.leaveAs_eq, leaves, fun _ => drops⟩
  | unary operator =>
      rw [tagged] at fits read
      rw [arity_eq_length fits, ← Except.ok.inj read] at count
      obtain ⟨operand, rfl⟩ := List.length_eq_one_iff.mp count
      obtain ⟨after, ran, leaves⟩ := exists_unary sound located operator stacked
      exact ⟨after, ran, leaves, by simp [Tag.dropsOutcome]⟩
  | binary operator =>
      rw [tagged] at fits read
      rw [arity_eq_length fits, ← Except.ok.inj read] at count
      obtain ⟨second, first, rfl⟩ := List.length_eq_two.mp count
      obtain ⟨after, drops, leaves⟩ := exists_binary sound located operator stacked
      exact ⟨after, drops.leaveAs_eq, leaves, fun _ => drops⟩
  | call =>
      rw [tagged] at fits read
      obtain ⟨parts, partsRead, same⟩ := exists_of_bind_eq_ok read
      rw [arity_eq_length fits, ← Except.ok.inj same] at count
      obtain ⟨callee, arguments, length, rfl⟩ := exists_reverse_append count
      obtain ⟨after, ran, leaves⟩ := exists_call sound located partsRead length
        (by simpa using stacked)
      exact ⟨after, ran, leaves, by simp [Tag.dropsOutcome]⟩
  | expression =>
      rw [tagged] at fits read
      rw [arity_eq_length fits, ← Except.ok.inj read] at count
      obtain ⟨inner, rfl⟩ := List.length_eq_one_iff.mp count
      exact ⟨_, (bind_eq (pop_eq stacked)).trans rfl, leaves_typed before rfl .agreed (by simp)
        before.graph before.nameTypes rest inner, by simp [Tag.dropsOutcome]⟩
  | evaluate =>
      rw [tagged] at fits
      obtain ⟨inner, rfl⟩ := List.length_eq_one_iff.mp (count.trans (by rw [arity, fits]; rfl))
      exact ⟨_, discard_eq (pop_eq stacked), leaves_untyped before rfl (by simp) .agreed
        (by simp) before.graph rest, by simp [Tag.dropsOutcome]⟩
  | constant | mutable | assign =>
      rw [tagged] at fits
      obtain ⟨value, target, rfl⟩ := List.length_eq_two.mp (count.trans (by rw [arity, fits]; rfl))
      have isBinding : outline.tag ∈ [.constant, .mutable, .assign] := by simp [tagged]
      obtain ⟨after, ran, leaves⟩ := exists_binding sound located isBinding stacked
      exact ⟨after, ran, tagged ▸ leaves, by simp [Tag.dropsOutcome]⟩
  | «return» =>
      rw [tagged] at fits read
      obtain ⟨value, valueRead, same⟩ := exists_of_bind_eq_ok read
      cases value with
      | none =>
          have childless := List.map_eq_nil_iff.mp (Except.ok.inj same).symm
          obtain rfl := List.length_eq_zero_iff.mp (count.trans (by rw [arity, childless]; rfl))
          obtain rfl : before.operands = rest := stacked
          exact ⟨before, (bind_eq (lift_eq valueRead _)).trans rfl,
            leaves_untyped before rfl (by simp) .agreed (by simp) before.graph _,
            by simp [Tag.dropsOutcome]⟩
      | some value =>
          rcases fits with none | one
          · rw [List.map_eq_nil_iff.mp none] at same
            cases same
          · obtain ⟨id, rfl⟩ := List.length_eq_one_iff.mp (count.trans (by rw [arity, one]; rfl))
            obtain ⟨after, ran, leaves⟩ := exists_returnStatement sound located valueRead stacked
            exact ⟨after, ran, leaves, by simp [Tag.dropsOutcome]⟩
  | function =>
      rw [tagged] at fits read
      obtain ⟨parts, partsRead, same⟩ := exists_of_bind_eq_ok read
      obtain ⟨parameters, kinds⟩ := fits
      have length : outline.arity = parts.parameters.length + 1 := by
        have total := Outline.arity_add_one kinds
        rw [← Except.ok.inj same] at total
        simpa using total
      obtain ⟨name, types, typesLength, rfl⟩ := exists_reverse_append (count.trans length)
      obtain ⟨after, ran, leaves⟩ := exists_functionDeclaration_leaves sound located partsRead
        typesLength (by simpa using stacked) (opened tagged)
      exact ⟨after, ran, leaves, by simp [Tag.dropsOutcome]⟩

end Leave

end Frontend
