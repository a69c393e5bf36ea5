import Frontend.Proofs.Syntax.Abstract
import Frontend.Proofs.Types.Solution

/-!
# Typing rules

Which trees the nodes of a program may have as their types, said without a type
graph. A typing gives a tree to every node of an expression and to the result of
every function. The rules are equations between these trees, one or two for each
kind of phrase.
-/

namespace Frontend

variable {Var : Type}

/-- What an operation demands of the trees of its operand and of its result. -/
def UnaryOperator.Relates (operand result : TypeTree Var) : UnaryOperator -> Prop
  | .plus | .negate => operand = .base .int ∧ result = operand
  | .not => operand = .base .bool ∧ result = operand
  | .addressOf => result = .pointer operand
  | .dereference => operand = .pointer result

/-- What an operation demands of the trees of its operands and of its result. -/
def BinaryOperator.Relates (left right result : TypeTree Var) : BinaryOperator -> Prop
  | .add | .sub | .mul | .div => left = right ∧ result = left
  | .equal | .notEqual | .less | .lessEqual | .greater | .greaterEqual | .and | .or =>
      left = right ∧ left = .base .bool ∧ result = .base .bool

section Rules

variable (types : NodeId -> TypeTree Var)

/-- The trees of the nodes of an expression obey the rules. Nothing is demanded of an
identifier on its own. -/
def Expression.Typed : Expression Mark -> Prop
  | .identifier _ => True
  | .literal mark base => types mark.node = .base base
  | .unary mark operator operand =>
      operand.Typed ∧ operator.Relates (types operand.label.node) (types mark.node)
  | .binary mark operator left right =>
      left.Typed ∧ right.Typed ∧
        operator.Relates (types left.label.node) (types right.label.node) (types mark.node)
  | .call mark callee arguments =>
      callee.Typed ∧ (∀ argument ∈ arguments, argument.Typed) ∧
        types callee.label.node =
          .function (arguments.map (fun argument => types argument.label.node) ++
            [types mark.node])

/-- A whole expression has the tree of what it is made of. -/
def Whole.Typed (whole : Whole Mark) : Prop :=
  whole.inner.Typed types ∧ types whole.label.node = types whole.inner.label.node

variable (results : NodeId -> TypeTree Var)

/-- The trees of the nodes of a statement obey the rules, where `around` is the
innermost function that the statement is a part of. A return outside of functions
may have any value. -/
def Statement.Typed : Option NodeId -> Statement Mark -> Prop
  | _, .binding _ _ name value =>
      value.Typed types ∧ types name.node = types value.label.node
  | _, .assign _ target value =>
      target.Typed types ∧ value.Typed types ∧
        types target.label.node = types value.label.node
  | _, .evaluate _ expression => expression.Typed types
  | around, .return _ value =>
      ∀ whole ∈ value, whole.Typed types ∧
        ∀ function ∈ around, types whole.label.node = results function
  | around, .block _ statements => ∀ statement ∈ statements, statement.Typed around
  | _, .function mark name parameters _ body =>
      (∀ statement ∈ body, statement.Typed (some mark.node)) ∧
        types name.node =
          .function (parameters.map (fun parameter => types parameter.node) ++
            [results mark.node])

/-- The trees of the nodes of a program obey the rules, and every usage has the tree
of its declaration. -/
structure Program.Typed
    (usages : List (NodeId × NodeId))
    (program : Program Mark) : Prop where
  statements : ∀ statement ∈ program.statements, statement.Typed types results none
  shared : ∀ pair ∈ usages, types pair.1 = types pair.2

end Rules

end Frontend
