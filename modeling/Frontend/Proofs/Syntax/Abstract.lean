import Frontend.Tree.Walk
import Mathlib.Data.List.Basic

/-!
# Abstract syntax

The flat arrays of a tree stand for nested phrases. Here the phrases are inductive
types, whose nodes carry labels of some type. In the abstract syntax of a token
stream a label is the main token of a node; in that of a flat tree it is a mark,
the node with its main token.
-/

namespace Frontend

/-- A node of a flat tree with its main token. -/
structure Mark where
  node : NodeId
  token : TokenId
  deriving DecidableEq, Repr

/-- An expression without the wrapper of a whole expression. -/
inductive Expression (Label : Type)
  | identifier (label : Label)
  | literal (label : Label) (base : BaseType)
  | unary (label : Label) (operator : UnaryOperator) (operand : Expression Label)
  | binary
      (label : Label)
      (operator : BinaryOperator)
      (left right : Expression Label)
  | call
      (label : Label)
      (callee : Expression Label)
      (arguments : List (Expression Label))
  deriving Repr

/-- A whole expression. -/
structure Whole (Label : Type) where
  label : Label
  inner : Expression Label
  deriving Repr

/-- A statement. Names and parameters are identifiers, given by their labels. -/
inductive Statement (Label : Type)
  /-- The declaration of a constant or a variable. -/
  | binding
      (label : Label)
      (isConstant : Bool)
      (name : Label)
      (value : Whole Label)
  | assign (label : Label) (target value : Whole Label)
  | evaluate (label : Label) (expression : Whole Label)
  | return (label : Label) (value : Option (Whole Label))
  | block (label : Label) (statements : List (Statement Label))
  | function
      (label name : Label)
      (parameters : List Label)
      (bodyLabel : Label)
      (body : List (Statement Label))
  deriving Repr

/-- A program. -/
structure Program (Label : Type) where
  label : Label
  statements : List (Statement Label)
  deriving Repr

namespace Expression

variable {Label Other : Type}

/-- Induction over expressions, with all arguments of a call at once. -/
@[elab_as_elim, induction_eliminator]
theorem inductionOn
    {motive : Expression Label -> Prop}
    (identifier : ∀ label, motive (.identifier label))
    (literal : ∀ label base, motive (.literal label base))
    (unary : ∀ label operator operand,
      motive operand -> motive (.unary label operator operand))
    (binary : ∀ label operator left right,
      motive left -> motive right -> motive (.binary label operator left right))
    (call : ∀ label callee arguments,
      motive callee -> (∀ argument ∈ arguments, motive argument) ->
        motive (.call label callee arguments))
    (expression : Expression Label) :
    motive expression :=
  match expression with
  | .identifier label => identifier label
  | .literal label base => literal label base
  | .unary label operator operand =>
      unary label operator operand
        (inductionOn identifier literal unary binary call operand)
  | .binary label operator left right =>
      binary label operator left right
        (inductionOn identifier literal unary binary call left)
        (inductionOn identifier literal unary binary call right)
  | .call label callee arguments =>
      call label callee arguments
        (inductionOn identifier literal unary binary call callee)
        fun argument _ => inductionOn identifier literal unary binary call argument

/-- The label of the outermost node. -/
def label : Expression Label -> Label
  | .identifier label | .literal label _ | .unary label _ _ | .binary label _ _ _
  | .call label _ _ => label

/-- Replace every label. -/
def map (change : Label -> Other) : Expression Label -> Expression Other
  | .identifier label => .identifier (change label)
  | .literal label base => .literal (change label) base
  | .unary label operator operand =>
      .unary (change label) operator (operand.map change)
  | .binary label operator left right =>
      .binary (change label) operator (left.map change) (right.map change)
  | .call label callee arguments =>
      .call (change label) (callee.map change) (arguments.map (map change))

/-- The labels of all nodes, each after those of its children. -/
def labels : Expression Label -> List Label
  | .identifier label => [label]
  | .literal label _ => [label]
  | .unary label _ operand => operand.labels ++ [label]
  | .binary label _ left right => left.labels ++ right.labels ++ [label]
  | .call label callee arguments =>
      callee.labels ++ (arguments.map labels).flatten ++ [label]

/-- Replacing labels replaces them in their order. -/
theorem labels_map (change : Label -> Other) (expression : Expression Label) :
    (expression.map change).labels = expression.labels.map change := by
  induction expression with
  | identifier => simp [map, labels]
  | literal => simp [map, labels]
  | unary label operator operand operandMapped => simp [map, labels, operandMapped]
  | binary label operator left right leftMapped rightMapped =>
      simp [map, labels, leftMapped, rightMapped]
  | call label callee arguments calleeMapped argumentsMapped =>
      have mapped : (arguments.map (map change)).map labels =
          (arguments.map labels).map (List.map change) := by
        rw [List.map_map, List.map_map]
        exact List.map_congr_left argumentsMapped
      simp only [map, labels, calleeMapped, mapped, List.map_append, List.map_flatten,
        List.map_cons, List.map_nil]

end Expression

namespace Statement

variable {Label Other : Type}

/-- Induction over statements, with all statements of a block at once. -/
@[elab_as_elim, induction_eliminator]
theorem inductionOn
    {motive : Statement Label -> Prop}
    (binding : ∀ label isConstant name value,
      motive (.binding label isConstant name value))
    (assign : ∀ label target value, motive (.assign label target value))
    (evaluate : ∀ label expression, motive (.evaluate label expression))
    (return_ : ∀ label value, motive (.return label value))
    (block : ∀ label statements,
      (∀ statement ∈ statements, motive statement) ->
        motive (.block label statements))
    (function : ∀ label name parameters bodyLabel body,
      (∀ statement ∈ body, motive statement) ->
        motive (.function label name parameters bodyLabel body))
    (statement : Statement Label) :
    motive statement :=
  match statement with
  | .binding label isConstant name value => binding label isConstant name value
  | .assign label target value => assign label target value
  | .evaluate label expression => evaluate label expression
  | .return label value => return_ label value
  | .block label statements =>
      block label statements fun statement _ =>
        inductionOn binding assign evaluate return_ block function statement
  | .function label name parameters bodyLabel body =>
      function label name parameters bodyLabel body fun statement _ =>
        inductionOn binding assign evaluate return_ block function statement

/-- The label of the outermost node. -/
def label : Statement Label -> Label
  | .binding label _ _ _ | .assign label _ _ | .evaluate label _ | .return label _
  | .block label _ | .function label _ _ _ _ => label

end Statement

/-- Replace every label. -/
def Whole.map {Label Other : Type} (change : Label -> Other) (whole : Whole Label) :
    Whole Other where
  label := change whole.label
  inner := whole.inner.map change

/-- The labels of all nodes, each after those of its children. -/
def Whole.labels {Label : Type} (whole : Whole Label) : List Label :=
  whole.inner.labels ++ [whole.label]

namespace Statement

variable {Label Other : Type}

/-- Replace every label. -/
def map (change : Label -> Other) : Statement Label -> Statement Other
  | .binding label isConstant name value =>
      .binding (change label) isConstant (change name) (value.map change)
  | .assign label target value =>
      .assign (change label) (target.map change) (value.map change)
  | .evaluate label expression => .evaluate (change label) (expression.map change)
  | .return label value => .return (change label) (value.map (Whole.map change))
  | .block label statements => .block (change label) (statements.map (map change))
  | .function label name parameters bodyLabel body =>
      .function (change label) (change name) (parameters.map change)
        (change bodyLabel) (body.map (map change))

/-- The labels of all nodes, each after those of its children. -/
def labels : Statement Label -> List Label
  | .binding label _ name value => name :: value.labels ++ [label]
  | .assign label target value => target.labels ++ value.labels ++ [label]
  | .evaluate label expression => expression.labels ++ [label]
  | .return label value => (value.map Whole.labels).getD [] ++ [label]
  | .block label statements => (statements.map labels).flatten ++ [label]
  | .function label name parameters bodyLabel body =>
      name :: parameters ++ ((body.map labels).flatten ++ [bodyLabel]) ++ [label]

/-- The returns in a statement, with their values. -/
def returns : Statement Label -> List (Label × Option (Whole Label))
  | .return label value => [(label, value)]
  | .block _ statements => (statements.map returns).flatten
  | .function _ _ _ _ body => (body.map returns).flatten
  | .binding _ _ _ _ | .assign _ _ _ | .evaluate _ _ => []

/-- Replacing labels replaces them in their order. -/
theorem labels_map (change : Label -> Other) (statement : Statement Label) :
    (statement.map change).labels = statement.labels.map change := by
  have run : ∀ statements : List (Statement Label),
      (∀ statement ∈ statements, (statement.map change).labels = statement.labels.map change) ->
        (statements.map (map change)).map labels =
          (statements.map labels).map (List.map change) := by
    intro statements mapped
    rw [List.map_map, List.map_map]
    exact List.map_congr_left mapped
  induction statement with
  | binding => simp [map, labels, Whole.map, Whole.labels, Expression.labels_map]
  | assign => simp [map, labels, Whole.map, Whole.labels, Expression.labels_map]
  | evaluate => simp [map, labels, Whole.map, Whole.labels, Expression.labels_map]
  | return_ label value =>
      cases value <;> simp [map, labels, Whole.map, Whole.labels, Expression.labels_map]
  | block label statements mapped =>
      simp only [map, labels, run _ mapped, List.map_append, List.map_flatten,
        List.map_cons, List.map_nil]
  | function label name parameters bodyLabel body mapped =>
      simp only [map, labels, run _ mapped, List.map_append, List.map_flatten,
        List.map_cons, List.map_nil]

/-- Replacing labels replaces them in the returns. -/
theorem returns_map (change : Label -> Other) (statement : Statement Label) :
    (statement.map change).returns =
      statement.returns.map fun pair => (change pair.1, pair.2.map (Whole.map change)) := by
  induction statement with
  | binding => simp [map, returns]
  | assign => simp [map, returns]
  | evaluate => simp [map, returns]
  | return_ => simp [map, returns]
  | block label statements ih =>
      simp only [map, returns, List.map_map, List.map_flatten]
      exact congrArg List.flatten (List.map_congr_left ih)
  | function label name parameters bodyLabel body ih =>
      simp only [map, returns, List.map_map, List.map_flatten]
      exact congrArg List.flatten (List.map_congr_left ih)

end Statement

/-- The labels of all nodes, that of the root first. -/
def Program.labels {Label : Type} (program : Program Label) : List Label :=
  program.label :: (program.statements.map Statement.labels).flatten

/-- Replace every label. -/
def Program.map {Label Other : Type} (change : Label -> Other) (program : Program Label) :
    Program Other where
  label := change program.label
  statements := program.statements.map (Statement.map change)

/-- Replacing labels replaces them in their order. -/
theorem Program.labels_map
    {Label Other : Type}
    (change : Label -> Other)
    (program : Program Label) :
    (program.map change).labels = program.labels.map change := by
  simp only [labels, map, List.map_cons, List.map_flatten, List.map_map]
  congr 2
  exact List.map_congr_left fun statement _ => statement.labels_map change

end Frontend
