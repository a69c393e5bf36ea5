import Frontend.Source.Basic
import Frontend.Token.Basic
import Frontend.Tree.Tag

/-!
# Syntax trees

A tree is a flat array of nodes that name each other by index; the root is node
zero. A node has two words of its own. What they mean depends on its tag:

* `root`, `block`: the bounds of a run of statements in the side array;
* `function`: the name, and the place in the side array of three words, the
  bounds of a run of parameters and the body;
* `constant`, `mutable`: the name and the initial value;
* `assign`: the target and the value;
* `evaluate`, `expression`, `unary`: the operand;
* `return`: the value, or `Node.absent`;
* `binary`: the operands;
* `call`: the callee, and the place in the side array of two words, the bounds
  of a run of arguments;
* `identifier`, `literal`: nothing, since the text is that of the main token.

A tree may be put together from parts that do not fit. Reading what is not there
is a fault.
-/

namespace Frontend

/-- The index of a token in its stream. -/
abbrev TokenId := Nat

/-- The index of a node in its tree. -/
abbrev NodeId := Nat

/-- A node of a flat tree. -/
structure Node where
  tag : Tag
  token : TokenId
  left : Nat
  right : Nat
  deriving DecidableEq, Repr

/-- The word that stands for an absent value. -/
def Node.absent : Nat := Source.wordSize - 1

/-- A flat syntax tree over the tokens of a source. -/
structure Tree where
  source : Source
  tokens : Array Token
  nodes : Array Node
  extra : Array Nat
  deriving DecidableEq, Repr

/-- The parts of a function declaration. -/
structure FunctionParts where
  name : NodeId
  parameters : List NodeId
  body : NodeId
  deriving DecidableEq, Repr

/-- The parts of a call. -/
structure CallParts where
  callee : NodeId
  arguments : List NodeId
  deriving DecidableEq, Repr

namespace Tree

variable (tree : Tree)

/-- The root is the first node. -/
def root : NodeId := 0

/-- The node of this index. -/
def node (id : NodeId) : Except Fault Node :=
  match tree.nodes[id]? with
  | some node => .ok node
  | none => .error (.node id)

/-- The token of this index. -/
def token (id : TokenId) : Except Fault Token :=
  match tree.tokens[id]? with
  | some token => .ok token
  | none => .error (.token id)

/-- The word of this index in the side array. -/
def word (index : Nat) : Except Fault Nat :=
  match tree.extra[index]? with
  | some word => .ok word
  | none => .error (.word index)

/-- The words of the side array from `start` up to `stop`. -/
def run (start stop : Nat) : Except Fault (List NodeId) :=
  if stop < start then
    .error (.reversedRun start stop)
  else if tree.extra.size < stop then
    .error (.word stop)
  else
    .ok (tree.extra.extract start stop).toList

/-- The statements of a root or a block. -/
def statements (id : NodeId) : Except Fault (List NodeId) := do
  let node <- tree.node id
  tree.run node.left node.right

/-- The parts of a function declaration. -/
def functionParts (id : NodeId) : Except Fault FunctionParts := do
  let node <- tree.node id
  let start <- tree.word node.right
  let stop <- tree.word (node.right + 1)
  let parameters <- tree.run start stop
  let body <- tree.word (node.right + 2)
  return { name := node.left, parameters, body }

/-- The parts of a call. -/
def callParts (id : NodeId) : Except Fault CallParts := do
  let node <- tree.node id
  let start <- tree.word node.right
  let stop <- tree.word (node.right + 1)
  let arguments <- tree.run start stop
  return { callee := node.left, arguments }

/-- The value of a return, if it has one. -/
def returnValue (id : NodeId) : Except Fault (Option NodeId) := do
  let node <- tree.node id
  return if node.left = Node.absent then none else some node.left

/-- The children of a node, in the order of the text. -/
def children (id : NodeId) : Except Fault (List NodeId) := do
  let node <- tree.node id
  match node.tag with
  | .root | .block => tree.statements id
  | .function =>
      let parts <- tree.functionParts id
      return parts.name :: parts.parameters ++ [parts.body]
  | .call =>
      let parts <- tree.callParts id
      return parts.callee :: parts.arguments
  | .return => return (<- tree.returnValue id).toList
  | .constant | .mutable | .assign | .binary _ => return [node.left, node.right]
  | .evaluate | .expression | .unary _ => return [node.left]
  | .identifier | .literal _ => return []

/-- The value of the main token of a node. -/
def text (id : NodeId) : Except Fault String := do
  return (<- tree.token (<- tree.node id).token).value

/-- The location of the main token of a node. -/
def location (id : NodeId) : Except Fault Location := do
  let token <- tree.token (<- tree.node id).token
  tree.source.locate token.span.start

end Tree

end Frontend
