import Frontend.Proofs.Types.Demand
import Frontend.Proofs.Types.Typing

/-!
# Inference at a node

On the way out of a node, the types of its operands are the latest ones on the stack,
and the type of an expression takes their place. What is demanded on top of the earlier
demands is the rule for the node, and nothing else.
-/

namespace Frontend

/-- The node that a slot belongs to. -/
def Slot.number? : Slot -> Option Nat
  | .node id | .result id => some id
  | .name _ => none

/-- No slot of the nodes from `start` up to `stop` has a type. -/
def Avoids (start stop : Nat) (placed : List (Slot × TypeId)) : Prop :=
  ∀ pair ∈ placed, ∀ number ∈ pair.1.number?, number < start ∨ stop ≤ number

/-- The tags of nodes that have a type. -/
def Tag.isTyped : Tag -> Bool
  | .literal _ | .identifier | .unary _ | .binary _ | .call | .expression => true
  | .root | .function | .block | .constant | .mutable | .assign | .evaluate | .return => false

/-- The node is a part of an expression, or a name that is declared. -/
def Tree.IsTyped (tree : Tree) (node : NodeId) : Prop :=
  ∃ found, tree.nodes[node]? = some found ∧ found.tag.isTyped = true

namespace Tree

variable {tree : Tree} {node : NodeId} {found : Node}

theorem isTyped_of_tag
    (present : tree.nodes[node]? = some found)
    (typed : found.tag.isTyped = true) :
    tree.IsTyped node :=
  ⟨found, present, typed⟩

theorem not_isTyped_of_tag
    (present : tree.nodes[node]? = some found)
    (untyped : found.tag.isTyped = false) :
    ¬ tree.IsTyped node := by
  rintro ⟨other, otherPresent, typed⟩
  rw [present, Option.some.injEq] at otherPresent
  rw [← otherPresent, untyped] at typed
  cases typed

end Tree

/-- Of the nodes from `start` up to `stop`, just those that have a type have one here. No
slots of other nodes have any. -/
structure Fills (tree : Tree) (start stop : Nat) (placed : List (Slot × TypeId)) : Prop where
  confined : ∀ pair ∈ placed, ∀ number ∈ pair.1.number?, start ≤ number ∧ number < stop
  typed : ∀ number, start ≤ number -> number < stop ->
    ((∃ id, (Slot.node number, id) ∈ placed) ↔ tree.IsTyped number)

theorem Avoids.mono
    {start stop first last : Nat}
    {placed : List (Slot × TypeId)}
    (avoids : Avoids start stop placed)
    (startLe : start ≤ first)
    (stopLe : last ≤ stop) :
    Avoids first last placed := by
  intro pair member number belongs
  have outside := avoids pair member number belongs
  omega

theorem Avoids.not_mem
    {slot : Slot}
    {node : NodeId}
    {placed : List (Slot × TypeId)}
    (avoids : Avoids node (node + 1) placed)
    (belongs : slot.number? = some node) :
    slot ∉ placed.map Prod.fst := by
  intro member
  obtain ⟨pair, listed, rfl⟩ := List.mem_map.mp member
  rcases avoids pair listed node belongs with below | above
  · exact Nat.lt_irrefl _ below
  · exact Nat.not_succ_le_self _ above

namespace Fills

variable {tree : Tree} {start middle stop : Nat} {placed more : List (Slot × TypeId)}

theorem empty (tree : Tree) (start : Nat) : Fills tree start start [] where
  confined := by simp
  typed := by
    intro number above below
    omega

/-- A node has a type. -/
theorem node
    {node : NodeId}
    {id : TypeId}
    (isTyped : tree.IsTyped node)
    (isPlaced : (.node node, id) ∈ placed)
    (alone : ∀ pair ∈ placed, ∀ number ∈ pair.1.number?, number = node) :
    Fills tree node (node + 1) placed where
  confined := by
    intro pair member number belongs
    rw [alone pair member number belongs]
    exact ⟨Nat.le_refl _, Nat.lt_succ_self _⟩
  typed := by
    intro number above below
    obtain rfl : number = node := Nat.le_antisymm (Nat.le_of_lt_succ below) above
    exact iff_of_true ⟨id, isPlaced⟩ isTyped

/-- A node has no type, but if it is a function, its result may have one. -/
theorem noNode
    {node : NodeId}
    (untyped : ¬ tree.IsTyped node)
    (alone : ∀ pair ∈ placed, pair.1 = .result node) :
    Fills tree node (node + 1) placed where
  confined := by
    intro pair member number belongs
    rw [alone pair member] at belongs
    cases belongs
    exact ⟨Nat.le_refl _, Nat.lt_succ_self _⟩
  typed := by
    intro number above below
    obtain rfl : number = node := Nat.le_antisymm (Nat.le_of_lt_succ below) above
    refine iff_of_false ?_ untyped
    rintro ⟨id, member⟩
    cases alone _ member

theorem append
    (first : Fills tree start middle placed)
    (second : Fills tree middle stop more)
    (startLe : start ≤ middle)
    (stopLe : middle ≤ stop) :
    Fills tree start stop (more ++ placed) where
  confined := by
    intro pair member number belongs
    rcases List.mem_append.mp member with late | early
    · have inside := second.confined pair late number belongs
      omega
    · have inside := first.confined pair early number belongs
      omega
  typed := by
    intro number above below
    simp only [List.mem_append, exists_or]
    by_cases early : number < middle
    · rw [first.typed number above early, or_iff_right]
      rintro ⟨id, member⟩
      have inside := second.confined _ member number rfl
      omega
    · rw [second.typed number (Nat.le_of_not_lt early) below, or_iff_left]
      rintro ⟨id, member⟩
      have inside := first.confined _ member number rfl
      omega

theorem swap (fills : Fills tree start stop (placed ++ more)) :
    Fills tree start stop (more ++ placed) where
  confined := by
    intro pair member
    exact fills.confined pair (List.mem_append.mpr (List.mem_append.mp member).symm)
  typed := by
    intro number above below
    rw [← fills.typed number above below]
    simp only [List.mem_append, or_comm]

end Fills

/-- The state of a walk has these types for slots, functions around and operands, and
its graph captures what is demanded. -/
structure Inference.Reflects
    (placed : List (Slot × TypeId))
    (functions waiting : List NodeId)
    (Required : Requirement)
    (inference : Inference) : Prop where
  captures : inference.graph.Captures inference.diagnostics placed Required
  distinct : (placed.map Prod.fst).Nodup
  nodes : ∀ node id, inference.nodeTypes[node]? = some id ↔ (.node node, id) ∈ placed
  names : ∀ name id, inference.nameTypes[name]? = some id ↔ (.name name, id) ∈ placed
  operands : List.Forall₂ (fun id node => (.node node, id) ∈ placed)
    inference.operands waiting
  results : List.Forall₂ (fun id function => (.result function, id) ∈ placed)
    inference.results functions

namespace Inference.Reflects

variable
  {inference : Inference}
  {placed : List (Slot × TypeId)}
  {functions waiting : List NodeId}
  {Required Other : Requirement}

theorem empty :
    Inference.Reflects [] [] [] (fun _ _ => True) {} where
  captures := by
    refine ⟨TypeGraph.wellFormed_empty, by simp, by simp, fun Var assignment => ?_⟩
    obtain ⟨trees, solves⟩ := TypeGraph.wellFormed_empty.exists_solves Var
    exact ⟨fun _ => ⟨rfl, trees, solves, by simp⟩, fun _ => trivial⟩
  distinct := by simp
  nodes := by simp
  names := by simp
  operands := .nil
  results := .nil

theorem congr
    (reflects : inference.Reflects placed functions waiting Required)
    (alike : ∀ (Var : Type) (assignment : Slot -> TypeTree Var),
      Required Var assignment ↔ Other Var assignment) :
    inference.Reflects placed functions waiting Other :=
  { reflects with captures := reflects.captures.congr alike }

/-- The latest type on the stack. -/
theorem exists_operand
    {node : NodeId}
    (reflects : inference.Reflects placed functions (node :: waiting) Required) :
    ∃ id rest, inference.operands = id :: rest ∧ (.node node, id) ∈ placed ∧
      Inference.Reflects placed functions waiting Required
        { inference with operands := rest } := by
  obtain ⟨id, rest, isPlaced, others, stacked⟩ :=
    List.forall₂_cons_right_iff.mp reflects.operands
  exact ⟨id, rest, stacked, isPlaced, { reflects with operands := others }⟩

/-- The latest types on the stack. -/
theorem exists_operands
    {nodes : List NodeId}
    (reflects : inference.Reflects placed functions (nodes.reverse ++ waiting) Required) :
    ∃ ids rest, inference.operands = ids.reverse ++ rest ∧
      List.Forall₂ (fun id node => (.node node, id) ∈ placed) ids nodes ∧
      Inference.Reflects placed functions waiting Required
        { inference with operands := rest } := by
  have latest := List.forall₂_take_append _ _ _ reflects.operands
  have others := List.forall₂_drop_append _ _ _ reflects.operands
  refine ⟨(inference.operands.take nodes.reverse.length).reverse,
    inference.operands.drop nodes.reverse.length, ?_, ?_, { reflects with operands := others }⟩
  · rw [List.reverse_reverse, List.take_append_drop]
  · rw [← List.forall₂_reverse_iff, List.reverse_reverse]
    exact latest

/-- The type of a node takes its place on the stack. -/
theorem push
    (reflects : inference.Reflects placed functions waiting Required)
    {graph : TypeGraph}
    {diagnostics : Array Diagnostic}
    {node : NodeId}
    {id : TypeId}
    (unplaced : .node node ∉ placed.map Prod.fst)
    (captures : graph.Captures diagnostics ((.node node, id) :: placed) Other) :
    Inference.Reflects ((.node node, id) :: placed) functions (node :: waiting) Other
      { inference with
        graph
        diagnostics
        nodeTypes := inference.nodeTypes.insert node id
        operands := id :: inference.operands } where
  captures := captures
  distinct := List.nodup_cons.mpr ⟨unplaced, reflects.distinct⟩
  nodes := by
    intro other otherId
    rw [Std.TreeMap.getElem?_insert, List.mem_cons, ← reflects.nodes]
    have absent : inference.nodeTypes[node]? = none := by
      rw [Option.eq_none_iff_forall_ne_some]
      intro earlier found
      exact unplaced (List.mem_map_of_mem ((reflects.nodes node earlier).mp found))
    split
    next same =>
      rw [Nat.compare_eq_eq] at same
      subst same
      simp [absent, eq_comm]
    next different =>
      have differ : other ≠ node := by
        rintro rfl
        exact different (Nat.compare_eq_eq.mpr rfl)
      simp [differ]
  names := by
    intro name otherId
    rw [reflects.names]
    simp
  operands := .cons (by simp)
    (reflects.operands.imp fun _ _ isPlaced => List.mem_cons_of_mem _ isPlaced)
  results := reflects.results.imp fun _ _ isPlaced => List.mem_cons_of_mem _ isPlaced

/-- A new type becomes that of the result of a function which is entered. -/
theorem openFunction
    (reflects : inference.Reflects placed functions waiting Required)
    {graph : TypeGraph}
    {function : NodeId}
    {id : TypeId}
    (unplaced : .result function ∉ placed.map Prod.fst)
    (captures : graph.Captures inference.diagnostics ((.result function, id) :: placed)
      Required) :
    Inference.Reflects ((.result function, id) :: placed) (function :: functions) waiting
      Required { inference with graph, results := id :: inference.results } where
  captures := captures
  distinct := List.nodup_cons.mpr ⟨unplaced, reflects.distinct⟩
  nodes := by
    intro node otherId
    rw [reflects.nodes]
    simp
  names := by
    intro name otherId
    rw [reflects.names]
    simp
  operands := reflects.operands.imp fun _ _ isPlaced => List.mem_cons_of_mem _ isPlaced
  results := .cons (by simp)
    (reflects.results.imp fun _ _ isPlaced => List.mem_cons_of_mem _ isPlaced)

/-- A new type becomes that of a name which has none. -/
theorem bindName
    (reflects : inference.Reflects placed functions waiting Required)
    {graph : TypeGraph}
    {name : QualifiedName}
    {id : TypeId}
    (missing : inference.nameTypes[name]? = none)
    (captures : graph.Captures inference.diagnostics ((.name name, id) :: placed) Required) :
    Inference.Reflects ((.name name, id) :: placed) functions waiting Required
      { inference with
        graph
        nameTypes := inference.nameTypes.insert name id } where
  captures := captures
  distinct := by
    refine List.nodup_cons.mpr ⟨fun member => ?_, reflects.distinct⟩
    obtain ⟨⟨slot, earlier⟩, listed, rfl⟩ := List.mem_map.mp member
    rw [← reflects.names, missing] at listed
    cases listed
  nodes := by
    intro node otherId
    rw [reflects.nodes]
    simp
  names := by
    intro other otherId
    rw [Std.HashMap.getElem?_insert, List.mem_cons, ← reflects.names]
    by_cases same : name = other
    · subst same
      simp [missing, eq_comm]
    · simp [same, Ne.symm same]
  operands := reflects.operands.imp fun _ _ isPlaced => List.mem_cons_of_mem _ isPlaced
  results := reflects.results.imp fun _ _ isPlaced => List.mem_cons_of_mem _ isPlaced

end Inference.Reflects

/-- Every occurrence of a name has the tree of the name. -/
def NameTable.Shares (names : NameTable) (node : NodeId) : Requirement :=
  fun _ assignment =>
    ∀ name ∈ names.name? node, assignment (.node node) = assignment (.name name)

namespace Infer

/-- From every state with these operands on top of the stack, the step leads to one with
others in their place, and demands this. The nodes from `start` up to `stop` get their
types. -/
def Demands
    (tree : Tree)
    (action : Infer Unit)
    (start stop : Nat)
    (functions popped pushed : List NodeId)
    (Adds : Requirement) : Prop :=
  ∀ (inference : Inference) (placed : List (Slot × TypeId)) (waiting : List NodeId)
      (Required : Requirement),
    inference.Reflects placed functions (popped ++ waiting) Required ->
      Avoids start stop placed ->
        ∃ next more, action inference = .ok ((), next) ∧
          next.Reflects (more ++ placed) functions (pushed ++ waiting)
            (fun Var assignment => Required Var assignment ∧ Adds Var assignment) ∧
          Fills tree start stop more

theorem lift_eq
    {Value : Type}
    {computation : Except Fault Value}
    {value : Value}
    (read : computation = .ok value)
    (inference : Inference) :
    (liftM computation : Infer Value) inference = .ok (value, inference) := by
  rw [read]
  rfl

theorem get_eq (inference : Inference) :
    (get : Infer Inference) inference = .ok (inference, inference) :=
  rfl

variable {tree : Tree} {names : NameTable} {node : NodeId} {functions : List NodeId}

theorem fills_node (isTyped : tree.IsTyped node) (id : TypeId) :
    Fills tree node (node + 1) [(.node node, id)] :=
  .node isTyped List.mem_cons_self (by simp [Slot.number?])

/-- A literal demands its base type. -/
theorem demands_literal (isTyped : tree.IsTyped node) (kind : BaseType) :
    (literal node kind).Demands tree node (node + 1) functions [] [node]
      (fun _ assignment => assignment (.node node) = .base kind) := by
  intro inference placed waiting Required reflects avoids
  obtain ⟨id, first, made, freshCaptures, -, free⟩ :=
    exists_fresh inference reflects.captures (.node node) node
  have isPlaced : (Slot.node node, id) ∈ (Slot.node node, id) :: placed := List.mem_cons_self
  obtain ⟨literalType, second, asked, captures, grows, bound, layer⟩ :=
    exists_base { inference with graph := first } freshCaptures kind
  have solvable : ∃ trees : TypeId -> TypeTree Empty,
      second.Solves trees ∧ trees id = trees literalType := by
    obtain ⟨trees, solves⟩ := reflects.captures.wellFormed.exists_solves Empty
    obtain ⟨more, moreSolve, -, given⟩ := free trees (.base kind) solves
    obtain ⟨most, mostSolve, same, -⟩ := grows.exists_solves freshCaptures.wellFormed
      captures.wellFormed moreSolve (.base kind)
    refine ⟨most, mostSolve, ?_⟩
    rw [mostSolve.layer _ _ layer, same id (freshCaptures.lt_size _ isPlaced), given]
    rfl
  obtain ⟨graph, ran, -, unified⟩ := exists_unify { inference with graph := second } captures
    (captures.lt_size _ isPlaced) bound (.of_mem isPlaced) (.of_base layer) solvable
  refine ⟨_, [(.node node, id)], ?_, (reflects.push (avoids.not_mem rfl) unified).congr ?_,
    fills_node isTyped id⟩
  · rw [literal, bind_eq made, bind_eq asked, bind_eq (discard_eq ran)]
    rfl
  · intro Var assignment
    simp [Requirement.equate, TypeTree.subst]

/-- An identifier demands the tree of its name, if it has one. -/
theorem demands_identifier
    (isTyped : tree.IsTyped node)
    (located : ∃ location, tree.location node = .ok location) :
    (identifier tree names node).Demands tree node (node + 1) functions [] [node]
      (names.Shares node) := by
  intro inference placed waiting Required reflects avoids
  cases named : names.name? node with
  | none =>
      -- An identifier without a declaration may have any tree.
      obtain ⟨id, graph, made, captures, -, -⟩ :=
        exists_fresh inference reflects.captures (.node node) node
      refine ⟨_, [(.node node, id)], ?_,
        (reflects.push (avoids.not_mem rfl) captures).congr ?_, fills_node isTyped id⟩
      · rw [identifier, bind_eq made, named]
        rfl
      · simp [NameTable.Shares, named]
  | some name =>
      cases known : inference.nameTypes[name]? with
      | some nameType =>
          obtain ⟨id, graph, made, captures, -, -⟩ :=
            exists_fresh inference reflects.captures (.node node) node
          have isPlaced : (Slot.node node, id) ∈ (Slot.node node, id) :: placed :=
            List.mem_cons_self
          have namePlaced : (Slot.name name, nameType) ∈ (Slot.node node, id) :: placed :=
            List.mem_cons_of_mem _ ((reflects.names name nameType).mp known)
          obtain ⟨success, coarse, diagnostics, ran, -, unified, -⟩ :=
            exists_unifyAt { inference with graph } captures (captures.lt_size _ isPlaced)
              (captures.lt_size _ namePlaced) (.of_mem isPlaced) (.of_mem namePlaced) located
          refine ⟨_, [(.node node, id)], ?_,
            (reflects.push (avoids.not_mem rfl) unified).congr ?_, fills_node isTyped id⟩
          · rw [identifier, bind_eq made, named]
            dsimp only
            rw [bind_eq (get_eq _)]
            simp only [known]
            rw [bind_eq (discard_eq ran)]
            rfl
          · simp [NameTable.Shares, named, Requirement.equate, TypeTree.subst]
      | none =>
          -- The first identifier of a name gives it its type.
          obtain ⟨id, graph, made, captures, -, -⟩ :=
            exists_fresh inference reflects.captures (.name name) node
          have bound := reflects.bindName known captures
          have isPlaced : (Slot.name name, id) ∈ (Slot.name name, id) :: placed :=
            List.mem_cons_self
          have unplaced : Slot.node node ∉ ((Slot.name name, id) :: placed).map Prod.fst := by
            rw [List.map_cons, List.mem_cons, not_or]
            exact ⟨by simp, avoids.not_mem rfl⟩
          refine ⟨_, [(.node node, id), (.name name, id)], ?_,
            (bound.push unplaced (captures.place (captures.lt_size _ isPlaced)
              (.of_mem isPlaced) (.node node))).congr ?_, ?_⟩
          · rw [identifier, bind_eq made, named]
            dsimp only
            rw [bind_eq (get_eq _)]
            simp only [known]
            rfl
          · simp [NameTable.Shares, named, Requirement.equate, TypeTree.subst]
          · exact .node isTyped List.mem_cons_self (by simp [Slot.number?])

section Operators

variable
  (isTyped : tree.IsTyped node)
  (located : ∃ location, tree.location node = .ok location)

include isTyped located

/-- A sign or a negation demands a base type of its operand, and has it as well. -/
theorem demands_sameAsOperand (operand : NodeId) (kind : BaseType) :
    (unary.sameAsOperand tree node kind).Demands tree node (node + 1) functions [operand] [node]
      (fun _ assignment => assignment (.node operand) = .base kind ∧
        assignment (.node node) = assignment (.node operand)) := by
  intro inference placed waiting Required reflects avoids
  obtain ⟨id, rest, stacked, isPlaced, popped⟩ := reflects.exists_operand
  obtain ⟨demanded, graph, asked, captures, -, bound, layer⟩ :=
    exists_base _ popped.captures kind
  obtain ⟨success, coarse, diagnostics, ran, -, unified, -⟩ :=
    exists_unifyAt { inference with operands := rest, graph } captures
      (captures.lt_size _ isPlaced) bound (.of_mem isPlaced) (.of_base layer) located
  have shared := unified.place (unified.lt_size _ isPlaced) (.of_mem isPlaced) (.node node)
  refine ⟨_, [(.node node, id)], ?_, (popped.push (avoids.not_mem rfl) shared).congr ?_,
    fills_node isTyped id⟩
  · rw [unary.sameAsOperand, bind_eq (pop_eq stacked), bind_eq asked,
      bind_eq (discard_eq ran)]
    rfl
  · simp [Requirement.equate, TypeTree.subst, and_assoc]

/-- A unary operation demands its rule. -/
theorem demands_unary (operator : UnaryOperator) (operand : NodeId) :
    (unary tree node operator).Demands tree node (node + 1) functions [operand] [node]
      (fun _ assignment =>
        operator.Relates (assignment (.node operand)) (assignment (.node node))) := by
  cases operator with
  | plus => exact demands_sameAsOperand isTyped located operand .int
  | negate => exact demands_sameAsOperand isTyped located operand .int
  | not => exact demands_sameAsOperand isTyped located operand .bool
  | addressOf =>
      intro inference placed waiting Required reflects avoids
      obtain ⟨id, rest, stacked, isPlaced, popped⟩ := reflects.exists_operand
      obtain ⟨address, graph, asked, captures, bound, denotes⟩ :=
        exists_pointer _ popped.captures isPlaced
      refine ⟨_, [(.node node, address)], ?_,
        (popped.push (avoids.not_mem rfl) (captures.place bound denotes (.node node))).congr ?_,
        fills_node isTyped address⟩
      · rw [unary, bind_eq (pop_eq stacked), bind_eq asked]
        rfl
      · simp [Requirement.equate, TypeTree.subst, UnaryOperator.Relates]
  | dereference =>
      intro inference placed waiting Required reflects avoids
      obtain ⟨id, rest, stacked, isPlaced, popped⟩ := reflects.exists_operand
      obtain ⟨target, first, made, freshCaptures, -, -⟩ :=
        exists_fresh _ popped.captures (.node node) node
      obtain ⟨address, second, asked, captures, bound, denotes⟩ :=
        exists_pointer { inference with operands := rest, graph := first } freshCaptures
          List.mem_cons_self
      have operandPlaced := List.mem_cons_of_mem (Slot.node node, target) isPlaced
      obtain ⟨success, coarse, diagnostics, ran, -, unified, -⟩ :=
        exists_unifyAt { inference with operands := rest, graph := second } captures
          (captures.lt_size _ operandPlaced) bound (.of_mem operandPlaced) denotes located
      refine ⟨_, [(.node node, target)], ?_,
        (popped.push (avoids.not_mem rfl) unified).congr ?_, fills_node isTyped target⟩
      · rw [unary, bind_eq (pop_eq stacked), bind_eq made, bind_eq asked,
          bind_eq (discard_eq ran)]
        rfl
      · simp [Requirement.equate, TypeTree.subst, UnaryOperator.Relates]

/-- An arithmetic operation demands one tree of its operands, and has it as well. -/
theorem demands_arithmetic (left right : NodeId) :
    (arithmetic tree node).Demands tree node (node + 1) functions [right, left] [node]
      (fun _ assignment => assignment (.node left) = assignment (.node right) ∧
        assignment (.node node) = assignment (.node left)) := by
  intro inference placed waiting Required reflects avoids
  obtain ⟨rightId, rest, rightStacked, rightPlaced, reflects⟩ := reflects.exists_operand
  obtain ⟨leftId, rest, leftStacked, leftPlaced, popped⟩ := reflects.exists_operand
  obtain ⟨success, first, diagnostics, ran, -, unified, -⟩ :=
    exists_unifyAt _ popped.captures (popped.captures.lt_size _ leftPlaced)
      (popped.captures.lt_size _ rightPlaced) (.of_mem leftPlaced) (.of_mem rightPlaced) located
  obtain ⟨result, second, made, captures, -, free⟩ :=
    exists_fresh { inference with operands := rest, graph := first, diagnostics } unified
      (.node node) node
  have isPlaced : (Slot.node node, result) ∈ (Slot.node node, result) :: placed :=
    List.mem_cons_self
  have operandPlaced := List.mem_cons_of_mem (Slot.node node, result) leftPlaced
  obtain ⟨graph, joined, -, unified⟩ :=
    exists_unify { inference with operands := rest, graph := second, diagnostics } captures
      (captures.lt_size _ isPlaced) (captures.lt_size _ operandPlaced) (.of_mem isPlaced)
      (.of_mem operandPlaced)
      (unified.wellFormed.exists_solves_free free (unified.lt_size _ leftPlaced))
  refine ⟨_, [(.node node, result)], ?_, (popped.push (avoids.not_mem rfl) unified).congr ?_,
    fills_node isTyped result⟩
  · rw [arithmetic, bind_eq (pop_eq rightStacked), bind_eq (pop_eq leftStacked),
      bind_eq (discard_eq ran), bind_eq made, bind_eq (discard_eq joined)]
    rfl
  · simp [Requirement.equate, TypeTree.subst, and_assoc]

omit isTyped in
/-- Both operands are made the same, and then a truth value. Operands that clash are not
compared with the truth values any more, since they cannot be the same. -/
theorem exists_unifyAt_truth
    (inference : Inference)
    {placed : List (Slot × TypeId)}
    {Required : Requirement}
    (captures : inference.graph.Captures inference.diagnostics placed Required)
    {left right : Slot}
    {leftId rightId truth : TypeId}
    (leftPlaced : (left, leftId) ∈ placed)
    (rightPlaced : (right, rightId) ∈ placed)
    (layer : inference.graph.repository.layer? truth = some (.base .bool)) :
    ∃ graph diagnostics,
      (∀ next : Infer Unit,
        (unifyAt tree node leftId rightId >>= fun success =>
          if success = true then
            discard (unifyAt tree node leftId truth) >>= fun _ => next
          else next) inference =
            next { inference with graph, diagnostics }) ∧
        graph.repository = inference.graph.repository ∧
        graph.Captures diagnostics placed
          ((Required.equate (.var left) (.var right)).equate (.var left) (.base .bool)) := by
  obtain ⟨success, graph, diagnostics, ran, sameTypes, unified, reported⟩ :=
    exists_unifyAt inference captures (captures.lt_size _ leftPlaced)
      (captures.lt_size _ rightPlaced) (.of_mem leftPlaced) (.of_mem rightPlaced) located
  cases success with
  | false =>
      refine ⟨graph, diagnostics, fun next => ?_, sameTypes,
        unified.strengthen (reported rfl) fun _ _ demanded => demanded.1⟩
      rw [bind_eq ran]
      rfl
  | true =>
      have truthLayer : graph.repository.layer? truth = some (.base .bool) :=
        sameTypes ▸ layer
      obtain ⟨_, coarse, others, compared, coarseTypes, settled, -⟩ :=
        exists_unifyAt { inference with graph, diagnostics } unified
          (unified.lt_size _ leftPlaced) (Repository.lt_size_of_layer? _ truthLayer)
          (.of_mem leftPlaced) (.of_base truthLayer) located
      refine ⟨coarse, others, fun next => ?_, coarseTypes.trans sameTypes, settled⟩
      rw [bind_eq ran, if_pos rfl, bind_eq (discard_eq compared)]

/-- A comparison or a logical operation demands truth values, and has their type. -/
theorem demands_comparison (left right : NodeId) :
    (comparison tree node).Demands tree node (node + 1) functions [right, left] [node]
      (fun _ assignment => assignment (.node left) = assignment (.node right) ∧
        assignment (.node left) = .base .bool ∧ assignment (.node node) = .base .bool) := by
  intro inference placed waiting Required reflects avoids
  obtain ⟨rightId, rest, rightStacked, rightPlaced, reflects⟩ := reflects.exists_operand
  obtain ⟨leftId, rest, leftStacked, leftPlaced, popped⟩ := reflects.exists_operand
  obtain ⟨truth, first, asked, captures, -, bound, layer⟩ :=
    exists_base _ popped.captures .bool
  obtain ⟨second, diagnostics, compared, sameTypes, settled⟩ :=
    exists_unifyAt_truth located { inference with operands := rest, graph := first } captures
      leftPlaced rightPlaced layer
  obtain ⟨result, third, made, captures, grows, free⟩ :=
    exists_fresh { inference with operands := rest, graph := second, diagnostics } settled
      (.node node) node
  have isPlaced : (Slot.node node, result) ∈ (Slot.node node, result) :: placed :=
    List.mem_cons_self
  have truthBound : truth < second.repository.size := sameTypes ▸ bound
  have truthLayer : third.repository.layer? truth = some (.base .bool) := by
    rw [grows.layer truth truthBound]
    exact sameTypes ▸ layer
  obtain ⟨graph, joined, -, unified⟩ :=
    exists_unify { inference with operands := rest, graph := third, diagnostics } captures
      (captures.lt_size _ isPlaced) (Nat.lt_of_lt_of_le truthBound grows.size_le)
      (.of_mem isPlaced) (.of_base truthLayer)
      (settled.wellFormed.exists_solves_free free truthBound)
  refine ⟨_, [(.node node, result)], ?_, (popped.push (avoids.not_mem rfl) unified).congr ?_,
    fills_node isTyped result⟩
  · rw [comparison, bind_eq (pop_eq rightStacked), bind_eq (pop_eq leftStacked),
      bind_eq asked]
    refine (compared _).trans ?_
    rw [bind_eq made, bind_eq (discard_eq joined)]
    rfl
  · simp [Requirement.equate, TypeTree.subst, and_assoc]

/-- A binary operation demands its rule. -/
theorem demands_binary (operator : BinaryOperator) (left right : NodeId) :
    (binary tree node operator).Demands tree node (node + 1) functions [right, left] [node]
      (fun _ assignment =>
        operator.Relates (assignment (.node left)) (assignment (.node right))
          (assignment (.node node))) := by
  cases operator with
  | add | sub | mul | div => exact demands_arithmetic isTyped located left right
  | equal | notEqual | less | lessEqual | greater | greaterEqual | and | or =>
      exact demands_comparison isTyped located left right

/-- A call demands that the callee is a function from the arguments to the call. -/
theorem demands_call
    {callee : NodeId}
    {arguments : List NodeId}
    (parts : tree.callParts node = .ok ⟨callee, arguments⟩) :
    (call tree node).Demands tree node (node + 1) functions (arguments.reverse ++ [callee]) [node]
      (fun _ assignment => assignment (.node callee) =
        .function (arguments.map (fun argument => assignment (.node argument)) ++
          [assignment (.node node)])) := by
  intro inference placed waiting Required reflects avoids
  rw [List.append_assoc] at reflects
  obtain ⟨ids, rest, stacked, argumentsPlaced, reflects⟩ := reflects.exists_operands
  obtain ⟨calleeId, rest, calleeStacked, calleePlaced, popped⟩ := reflects.exists_operand
  obtain ⟨result, first, made, freshCaptures, -, -⟩ :=
    exists_fresh _ popped.captures (.node node) node
  have signaturePlaced : List.Forall₂
      (fun id slot => (slot, id) ∈ (Slot.node node, result) :: placed)
      (ids ++ [result]) (arguments.map Slot.node ++ [.node node]) := by
    refine List.rel_append ?_ (.cons List.mem_cons_self .nil)
    rw [List.forall₂_map_right_iff]
    exact argumentsPlaced.imp fun _ _ isPlaced => List.mem_cons_of_mem _ isPlaced
  obtain ⟨signature, second, asked, captures, bound, denotes⟩ :=
    exists_function { inference with operands := rest, graph := first } freshCaptures
      signaturePlaced
  have operandPlaced := List.mem_cons_of_mem (Slot.node node, result) calleePlaced
  obtain ⟨success, coarse, diagnostics, ran, -, unified, -⟩ :=
    exists_unifyAt { inference with operands := rest, graph := second } captures
      (captures.lt_size _ operandPlaced) bound (.of_mem operandPlaced) denotes located
  refine ⟨_, [(.node node, result)], ?_,
    (popped.push (avoids.not_mem rfl) unified).congr ?_, fills_node isTyped result⟩
  · rw [call, bind_eq (lift_eq parts _)]
    dsimp only
    rw [← argumentsPlaced.length_eq, bind_eq (popMany_eq stacked),
      bind_eq (pop_eq calleeStacked), bind_eq made, bind_eq asked, bind_eq (discard_eq ran)]
    rfl
  · intro Var assignment
    rw [Requirement.equate, TypeTree.subst_function_var, TypeTree.subst, List.map_append,
      List.map_map]
    rfl

end Operators

/-- A whole expression has the tree of what it is made of. -/
theorem demands_whole (isTyped : tree.IsTyped node) (inner : NodeId) :
    (do push node (<- pop) : Infer Unit).Demands tree node (node + 1) functions [inner] [node]
      (fun _ assignment => assignment (.node node) = assignment (.node inner)) := by
  intro inference placed waiting Required reflects avoids
  obtain ⟨id, rest, stacked, isPlaced, popped⟩ := reflects.exists_operand
  have shared := popped.captures.place (popped.captures.lt_size _ isPlaced)
    (.of_mem isPlaced) (.node node)
  refine ⟨_, [(.node node, id)], ?_, (popped.push (avoids.not_mem rfl) shared).congr ?_,
    fills_node isTyped id⟩
  · rw [bind_eq (pop_eq stacked)]
    rfl
  · simp [Requirement.equate, TypeTree.subst]

/-- The value of an expression that is a statement is dropped. -/
theorem demands_evaluate (untyped : ¬ tree.IsTyped node) (value : NodeId) :
    (discard pop : Infer Unit).Demands tree node (node + 1) functions [value] []
      (fun _ _ => True) := by
  intro inference placed waiting Required reflects avoids
  obtain ⟨id, rest, stacked, -, popped⟩ := reflects.exists_operand
  exact ⟨_, [], discard_eq (pop_eq stacked), popped.congr (by simp), .noNode untyped (by simp)⟩

section Statements

variable (located : ∃ location, tree.location node = .ok location)

include located

/-- A declaration or an assignment demands one tree of both sides. -/
theorem demands_binding (untyped : ¬ tree.IsTyped node) (target value : NodeId) :
    (binding tree node).Demands tree node (node + 1) functions [value, target] []
      (fun _ assignment => assignment (.node target) = assignment (.node value)) := by
  intro inference placed waiting Required reflects avoids
  obtain ⟨valueId, rest, valueStacked, valuePlaced, reflects⟩ := reflects.exists_operand
  obtain ⟨targetId, rest, targetStacked, targetPlaced, popped⟩ := reflects.exists_operand
  obtain ⟨success, graph, diagnostics, ran, -, unified, -⟩ :=
    exists_unifyAt _ popped.captures (popped.captures.lt_size _ targetPlaced)
      (popped.captures.lt_size _ valuePlaced) (.of_mem targetPlaced) (.of_mem valuePlaced)
      located
  have settled : Inference.Reflects placed functions waiting _
      { inference with operands := rest, graph, diagnostics } :=
    { popped with captures := unified }
  refine ⟨_, [], ?_, settled.congr ?_, .noNode untyped (by simp)⟩
  · rw [binding, bind_eq (pop_eq valueStacked), bind_eq (pop_eq targetStacked)]
    exact discard_eq ran
  · simp [Requirement.equate, TypeTree.subst]

/-- A return with a value demands that it has the tree of the result of the innermost
function, if there is one. -/
theorem demands_return
    (untyped : ¬ tree.IsTyped node)
    {value : NodeId}
    (read : tree.returnValue node = .ok (some value)) :
    (returnStatement tree node).Demands tree node (node + 1) functions [value] []
      (fun _ assignment => ∀ function ∈ functions.head?,
        assignment (.node value) = assignment (.result function)) := by
  intro inference placed waiting Required reflects avoids
  obtain ⟨id, rest, stacked, isPlaced, popped⟩ := reflects.exists_operand
  cases functions with
  | nil =>
      have none : inference.results = [] := List.forall₂_nil_right_iff.mp popped.results
      refine ⟨_, [], ?_, popped.congr (by simp), .noNode untyped (by simp)⟩
      rw [returnStatement, bind_eq (lift_eq read _), Option.isSome_some, if_pos rfl,
        bind_eq (pop_eq stacked), bind_eq (get_eq _)]
      simp only [none]
      rfl
  | cons function functions =>
      obtain ⟨result, results, resultPlaced, -, opened⟩ :=
        List.forall₂_cons_right_iff.mp reflects.results
      have innermost : inference.results.head? = some result := by
        rw [opened, List.head?_cons]
      obtain ⟨success, graph, diagnostics, ran, -, unified, -⟩ :=
        exists_unifyAt _ popped.captures (popped.captures.lt_size _ isPlaced)
          (popped.captures.lt_size _ resultPlaced) (.of_mem isPlaced) (.of_mem resultPlaced)
          located
      have settled : Inference.Reflects placed (function :: functions) waiting _
          { inference with operands := rest, graph, diagnostics } :=
        { popped with captures := unified }
      refine ⟨_, [], ?_, settled.congr ?_, .noNode untyped (by simp)⟩
      · rw [returnStatement, bind_eq (lift_eq read _), Option.isSome_some, if_pos rfl,
          bind_eq (pop_eq stacked), bind_eq (get_eq _)]
        simp only [innermost]
        exact discard_eq ran
      · simp [Requirement.equate, TypeTree.subst]

/-- A function demands that its name is a function from the parameters to the result,
which no longer waits for returns. -/
theorem exists_functionDeclaration
    {inference : Inference}
    {placed : List (Slot × TypeId)}
    {waiting : List NodeId}
    {Required : Requirement}
    {name body : NodeId}
    {parameters : List NodeId}
    (parts : tree.functionParts node = .ok ⟨name, parameters, body⟩)
    (reflects : inference.Reflects placed (node :: functions)
      (parameters.reverse ++ (name :: waiting)) Required) :
    ∃ next, functionDeclaration tree node inference = .ok ((), next) ∧
      next.Reflects placed functions waiting
        (fun Var assignment => Required Var assignment ∧ assignment (.node name) =
          .function (parameters.map (fun parameter => assignment (.node parameter)) ++
            [assignment (.result node)])) := by
  obtain ⟨result, results, resultPlaced, others, opened⟩ :=
    List.forall₂_cons_right_iff.mp reflects.results
  obtain ⟨ids, rest, stacked, parametersPlaced, reflects⟩ := reflects.exists_operands
  obtain ⟨nameId, rest, nameStacked, namePlaced, popped⟩ := reflects.exists_operand
  have signaturePlaced : List.Forall₂ (fun id slot => (slot, id) ∈ placed)
      (ids ++ [result]) (parameters.map Slot.node ++ [.result node]) := by
    refine List.rel_append ?_ (.cons resultPlaced .nil)
    rw [List.forall₂_map_right_iff]
    exact parametersPlaced
  obtain ⟨signature, first, asked, captures, bound, denotes⟩ :=
    exists_function { inference with operands := rest, results } popped.captures
      signaturePlaced
  obtain ⟨success, graph, diagnostics, ran, -, unified, -⟩ :=
    exists_unifyAt { inference with operands := rest, results, graph := first } captures
      (captures.lt_size _ namePlaced) bound (.of_mem namePlaced) denotes located
  have settled : Inference.Reflects placed functions waiting _
      { inference with operands := rest, results, graph, diagnostics } :=
    { popped with captures := unified, results := others }
  refine ⟨_, ?_, settled.congr ?_⟩
  · rw [functionDeclaration, bind_eq (lift_eq parts _)]
    dsimp only
    rw [← parametersPlaced.length_eq, bind_eq (popMany_eq stacked),
      bind_eq (pop_eq nameStacked), bind_eq (get_eq _)]
    simp only [opened]
    rw [bind_eq rfl, bind_eq asked]
    exact discard_eq ran
  · intro Var assignment
    rw [Requirement.equate, TypeTree.subst_function_var, TypeTree.subst, List.map_append,
      List.map_map]
    rfl

end Statements

end Infer

end Frontend
