import Frontend.Diagnostic.Basic
import Frontend.Scope.Name
import Frontend.Tree.Walk
import Frontend.Types.Graph
import Frontend.Types.Table

/-!
# Type inference

A walk through a tree gives every expression a type. On the way out of a node,
the types of its operands are the latest ones on a stack; an expression puts its
own type in their place. What the node demands of these types is unified in the
type graph. Two types that cannot be the same are reported at the node, and
inference goes on.

All occurrences of a name share one type. A function has a type for its result,
which is that of every value it returns.
-/

namespace Frontend

/-- What a walk has found. -/
structure Inference where
  graph : TypeGraph := {}
  /-- The types of expressions that wait for their parent, latest first. -/
  operands : List TypeId := []
  /-- The result types of the functions around, innermost first. -/
  results : List TypeId := []
  nameTypes : Std.HashMap QualifiedName TypeId := {}
  nodeTypes : Std.TreeMap NodeId TypeId := {}
  diagnostics : Array Diagnostic := #[]

/-- A step of inference. -/
abbrev Infer := StateT Inference (Except Fault)

namespace Infer

/-- Change the type graph. -/
def onGraph {α : Type} (change : TypeGraph -> α × TypeGraph) : Infer α :=
  modifyGet fun inference =>
    let (value, graph) := change inference.graph
    (value, { inference with graph })

/-- A type of which nothing is known. -/
def fresh (node : NodeId) : Infer TypeId :=
  onGraph (·.fresh (some node))

/-- The type that stands for a base type. -/
def base (base : BaseType) : Infer TypeId :=
  onGraph (·.base base)

/-- A pointer type. -/
def pointer (pointee : TypeId) : Infer TypeId :=
  onGraph (·.pointer pointee)

/-- A function type. -/
def function (subtypes : List TypeId) : Infer TypeId :=
  onGraph (·.function subtypes)

/-- Give a node a type and make it wait for the parent. -/
def push (node : NodeId) (id : TypeId) : Infer Unit :=
  modify fun inference =>
    { inference with
      nodeTypes := inference.nodeTypes.insert node id
      operands := id :: inference.operands }

/-- Take the latest type. -/
def pop : Infer TypeId := do
  let inference <- get
  match inference.operands with
  | [] => throw .noOperand
  | id :: operands =>
      set { inference with operands }
      return id

/-- Take the latest types, and give them in the order in which they came. -/
def popMany (count : Nat) : Infer (List TypeId) := do
  let inference <- get
  if inference.operands.length < count then
    throw .noOperand
  set { inference with operands := inference.operands.drop count }
  return (inference.operands.take count).reverse

/-- Make two types the same. -/
def unify (left right : TypeId) : Infer (Except Clash Unit) := do
  let inference <- get
  match Unifier.unify left right inference.graph with
  | .ok _ graph =>
      set { inference with graph }
      return .ok ()
  | .error (.failed clash) graph =>
      set { inference with graph }
      return .error clash
  | .error (.fault fault) _ => throw fault

/-- Make two types the same, or report them at a node. -/
def unifyAt
    (tree : Tree)
    (node : NodeId)
    (left right : TypeId) : Infer Bool := do
  match <- unify left right with
  | .ok _ => return true
  | .error _ =>
      let inference <- get
      let left <- inference.graph.render left
      let right <- inference.graph.render right
      let location <- tree.location node
      set { inference with
        diagnostics := inference.diagnostics.push
          { cause := .mismatch left right, location } }
      return false

section Nodes

variable (tree : Tree) (names : NameTable) (node : NodeId)

/-- A literal has its base type. -/
def literal (base : BaseType) : Infer Unit := do
  let id <- fresh node
  let literalType <- Infer.base base
  discard (unify id literalType)
  push node id

/-- An identifier shares its type with the other occurrences of its name. -/
def identifier : Infer Unit := do
  let id <- fresh node
  if let some name := names.name? node then
    match (<- get).nameTypes[name]? with
    | some nameType => discard (unifyAt tree node id nameType)
    | none =>
        modify fun inference =>
          { inference with nameTypes := inference.nameTypes.insert name id }
  push node id

/-- The operand of a sign is an integer, and that of a negation a truth value.
The address of an operand is a pointer to it; an operand with a target is a
pointer to that. -/
def unary : UnaryOperator -> Infer Unit
  | .plus | .negate => sameAsOperand .int
  | .not => sameAsOperand .bool
  | .addressOf => do
      let operand <- pop
      let address <- pointer operand
      push node address
  | .dereference => do
      let operand <- pop
      let target <- fresh node
      let address <- pointer target
      discard (unifyAt tree node operand address)
      push node target
where
  /-- The operand has a base type, and so has the operation. -/
  sameAsOperand (base : BaseType) : Infer Unit := do
    let operand <- pop
    let demanded <- Infer.base base
    discard (unifyAt tree node operand demanded)
    push node operand

/-- Both operands of an arithmetic operation have its type. -/
def arithmetic : Infer Unit := do
  let right <- pop
  let left <- pop
  discard (unifyAt tree node left right)
  let result <- fresh node
  discard (unify result left)
  push node result

/-- Both operands of a comparison or a logical operation are truth values, and so
is the operation. -/
def comparison : Infer Unit := do
  let right <- pop
  let left <- pop
  let truth <- base .bool
  if <- unifyAt tree node left right then
    discard (unifyAt tree node left truth)
  let result <- fresh node
  discard (unify result truth)
  push node result

/-- What a binary operation demands. -/
def binary : BinaryOperator -> Infer Unit
  | .add | .sub | .mul | .div => arithmetic tree node
  | .equal | .notEqual | .less | .lessEqual | .greater | .greaterEqual | .and
  | .or => comparison tree node

/-- The callee is a function from the arguments to the call. -/
def call : Infer Unit := do
  let arguments <- popMany (<- tree.callParts node).arguments.length
  let callee <- pop
  let result <- fresh node
  let signature <- function (arguments ++ [result])
  discard (unifyAt tree node callee signature)
  push node result

/-- Both sides of a declaration or assignment have one type. -/
def binding : Infer Unit := do
  let value <- pop
  let target <- pop
  discard (unifyAt tree node target value)

/-- The name is a function from the parameters to the result. -/
def functionDeclaration : Infer Unit := do
  let parameters <- popMany (<- tree.functionParts node).parameters.length
  let name <- pop
  let inference <- get
  match inference.results with
  | [] => throw .noOperand
  | result :: results =>
      set { inference with results }
      let signature <- function (parameters ++ [result])
      discard (unifyAt tree node name signature)

/-- The value of a return is the result of the function around it. -/
def returnStatement : Infer Unit := do
  if (<- tree.returnValue node).isSome then
    let value <- pop
    if let some result := (<- get).results.head? then
      discard (unifyAt tree node value result)

/-- What to do on the way into a node: a function gets a type for its result. -/
def enter : Infer Unit := do
  if (<- tree.node node).tag = .function then
    let result <- fresh node
    modify fun inference =>
      { inference with results := result :: inference.results }

/-- What to do on the way out of a node with this tag. -/
def leaveAs : Tag -> Infer Unit
  | .root | .block => return
  | .literal base => literal node base
  | .identifier => identifier tree names node
  | .unary operator => unary tree node operator
  | .binary operator => binary tree node operator
  | .call => call tree node
  | .expression => do
      let inner <- pop
      push node inner
  | .evaluate => discard pop
  | .constant | .mutable | .assign => binding tree node
  | .return => returnStatement tree node
  | .function => functionDeclaration tree node

/-- What to do on the way out of a node. -/
def leave : Infer Unit := do
  leaveAs tree names node (<- tree.node node).tag

end Nodes

/-- One step of the walk. -/
def step (tree : Tree) (names : NameTable) : Event -> Infer Unit
  | .enter node => enter tree node
  | .leave node => leave tree names node

end Infer

namespace Inference

variable (inference : Inference)

/-- The representatives of all types, by index. -/
def representatives : Array TypeId :=
  Array.ofFn fun index : Fin inference.graph.repository.size =>
    inference.graph.root index

/-- The table of types that a finished walk has found. -/
def table : Except Fault TypeTable := do
  if !inference.operands.isEmpty then
    throw .leftoverOperands
  let representatives := inference.representatives
  let repository <- inference.graph.repository.canonicalize representatives
  return {
    repository
    representatives
    nodeTypes := inference.nodeTypes
    nameTypes := inference.nameTypes }

end Inference

namespace Tree

/-- What a walk through the whole tree finds. -/
def inference (tree : Tree) (names : NameTable) : Except Fault Inference := do
  let (_, inference) <- ((<- tree.events).forM (Infer.step tree names)).run {}
  return inference

end Tree

end Frontend
