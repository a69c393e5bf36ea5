import Frontend.Proofs.Grammar.Reading
import Frontend.Proofs.Syntax.Holding
import Frontend.Proofs.Syntax.Layout
import Frontend.Proofs.Syntax.Numbering

/-!
# Building phrases

A parser only appends to its arrays. The nodes of a phrase are made one after
another, each after its children, so the phrase is exactly what stands between the
nodes from before it and the nodes from after it.
-/

namespace Frontend

namespace Parser

/-- The nodes that are made from one progress to another name just the stretches of the
side array that are written on the way. -/
def LaysOut (before after : Progress) : Prop :=
  ∃ made : List Node,
    after.nodes = before.nodes ++ made ∧
      Tiles before.extra.size after.extra.size (made.flatMap (Node.stretches after.extra))

namespace LaysOut

variable {before middle after : Progress}

theorem refl (progress : Progress) : LaysOut progress progress :=
  ⟨[], by simp, rfl⟩

theorem trans
    (first : LaysOut before middle)
    (second : LaysOut middle after)
    (extended : Extends middle.extra after.extra) :
    LaysOut before after := by
  obtain ⟨made, nodes, tiles⟩ := first
  obtain ⟨madeLater, nodesLater, tilesLater⟩ := second
  refine ⟨made ++ madeLater, ?_, ?_⟩
  · rw [nodesLater, nodes]
    apply Array.ext'
    simp only [Array.toList_appendList, List.append_assoc]
  · rw [List.flatMap_append, tiles.stretches_eq extended]
    exact tiles.append tilesLater

end LaysOut

/-- From one progress to another, just the nodes with these marks are made. -/
structure Grown (before after : Progress) (marks : List Mark) : Prop where
  laidOut : LaysOut before after
  extra : Extends before.extra after.extra
  numbered : Numbered before.nodes.size after.nodes.size marks
  depth : after.depth = before.depth

namespace Grown

variable {before middle after : Progress} {marks others : List Mark}

theorem nodes (grown : Grown before after marks) : Extends before.nodes after.nodes := by
  obtain ⟨made, same, -⟩ := grown.laidOut
  exact ⟨made, same⟩

theorem refl (progress : Progress) : Grown progress progress [] where
  laidOut := .refl _
  extra := .refl _
  numbered := .nil _
  depth := rfl

theorem trans (first : Grown before middle marks) (second : Grown middle after others) :
    Grown before after (marks ++ others) where
  laidOut := first.laidOut.trans second.laidOut second.extra
  extra := first.extra.trans second.extra
  numbered := first.numbered.append second.numbered
  depth := second.depth.trans first.depth

/-- Where tokens are read, nothing is made. -/
theorem move (grown : Grown before after marks) (position : Nat) :
    Grown before { after with position } marks where
  laidOut := grown.laidOut
  extra := grown.extra
  numbered := grown.numbered
  depth := grown.depth

/-- Where tokens were read before, nothing was made. -/
theorem of_advanced (grown : Grown (advanced before) after marks) :
    Grown before after marks where
  laidOut := grown.laidOut
  extra := grown.extra
  numbered := grown.numbered
  depth := grown.depth

/-- A node is made together with the stretches that it names. -/
theorem made
    (progress : Progress)
    {longer : Array Nat}
    (extended : Extends progress.extra longer)
    {node : Node}
    (tiles : Tiles progress.extra.size longer.size (node.stretches longer))
    (token : TokenId) :
    Grown progress (withNode { progress with extra := longer } node)
      [⟨progress.nodes.size, token⟩] where
  laidOut := ⟨[node], by simp [withNode], by simpa [withNode] using tiles⟩
  extra := extended
  numbered := by simpa [withNode] using Numbered.singleton progress.nodes.size token
  depth := rfl

/-- A node that names no stretch is made. -/
theorem node
    (grown : Grown before after marks)
    (node : Node)
    (plain : node.stretches after.extra = [])
    (token : TokenId) :
    Grown before (withNode after node) (marks ++ [⟨after.nodes.size, token⟩]) :=
  grown.trans (made after (.refl _) (by rw [plain]; rfl) token)

end Grown

theorem getElem?_withNode (progress : Progress) (node : Node) :
    (withNode progress node).nodes[progress.nodes.size]? = some node := by
  simp [withNode]

/-- From one progress to another, just this expression is made. -/
structure Builds (before after : Progress) (expression : Expression Mark) : Prop where
  grown : Grown before after expression.labels
  held : expression.Holds after.nodes after.extra

/-- From one progress to another, just these expressions are made. -/
structure BuildsAll
    (before after : Progress)
    (expressions : List (Expression Mark)) : Prop where
  grown : Grown before after (expressions.map (·.labels)).flatten
  held : ∀ expression ∈ expressions, expression.Holds after.nodes after.extra

end Parser

section Growing

variable {before after : Progress} {marks : List Mark}

theorem Expression.Holds.grow
    {expression : Expression Mark}
    (held : expression.Holds before.nodes before.extra)
    (grown : Parser.Grown before after marks) :
    expression.Holds after.nodes after.extra :=
  held.keep (.of_extends grown.nodes _) grown.extra

theorem Whole.Holds.grow
    {whole : Whole Mark}
    (held : whole.Holds before.nodes before.extra)
    (grown : Parser.Grown before after marks) :
    whole.Holds after.nodes after.extra :=
  held.keep (.of_extends grown.nodes _) grown.extra

theorem Statement.Holds.grow
    {statement : Statement Mark}
    (held : statement.Holds before.nodes before.extra)
    (grown : Parser.Grown before after marks) :
    statement.Holds after.nodes after.extra :=
  held.keep (.of_extends grown.nodes _) grown.extra

end Growing

namespace Parser

section Expressions

variable {first before middle after : Progress}

theorem builds_identifier (before : Progress) :
    Builds before (withLeaf before .identifier)
      (.identifier ⟨before.nodes.size, before.position⟩) where
  grown := by
    rw [Expression.labels]
    exact ((Grown.refl before).move _).node _ rfl _
  held := .identifier (getElem?_withNode _ _)

theorem builds_literal (before : Progress) (base : BaseType) :
    Builds before (withLeaf before (.literal base))
      (.literal ⟨before.nodes.size, before.position⟩ base) where
  grown := by
    rw [Expression.labels]
    exact ((Grown.refl before).move _).node _ rfl _
  held := .literal (getElem?_withNode _ _)

theorem Builds.unary
    {operand : Expression Mark}
    (built : Builds before middle operand)
    (operator : UnaryOperator)
    (token : TokenId) :
    Builds before (withNode middle ⟨.unary operator, token, operand.label.node, 0⟩)
      (.unary ⟨middle.nodes.size, token⟩ operator operand) := by
  have grown :=
    (Grown.refl middle).node ⟨.unary operator, token, operand.label.node, 0⟩ rfl token
  refine ⟨?_, .unary (getElem?_withNode _ _) (built.held.grow grown)⟩
  rw [Expression.labels]
  exact built.grown.trans grown

theorem Builds.binary
    {left right : Expression Mark}
    (leftBuilt : Builds first before left)
    (rightBuilt : Builds before middle right)
    (operator : BinaryOperator)
    (token : TokenId) :
    Builds first
      (withNode middle ⟨.binary operator, token, left.label.node, right.label.node⟩)
      (.binary ⟨middle.nodes.size, token⟩ operator left right) := by
  have grown := (Grown.refl middle).node
    ⟨.binary operator, token, left.label.node, right.label.node⟩ rfl token
  refine ⟨?_, .binary (getElem?_withNode _ _) ?_ (rightBuilt.held.grow grown)⟩
  · rw [Expression.labels]
    exact (leftBuilt.grown.trans rightBuilt.grown).trans grown
  · exact (leftBuilt.held.grow rightBuilt.grown).grow grown

/-- A run and its bounds stand where they were written. -/
theorem standsAt_withRuns (progress : Progress) (words more : List Nat) (stop : Nat) :
    StandsAt
        (withRun (withRun progress words) (progress.extra.size :: stop :: more)).extra
        (withRun progress words).extra.size (progress.extra.size :: stop :: more) ∧
      StandsAt
        (withRun (withRun progress words) (progress.extra.size :: stop :: more)).extra
        progress.extra.size words :=
  ⟨.append_self _ _, (StandsAt.append_self _ _).extend (.append _ _)⟩

theorem Builds.call
    {callee : Expression Mark}
    {arguments : List (Expression Mark)}
    (calleeBuilt : Builds first before callee)
    (argumentsBuilt : BuildsAll before middle arguments)
    (token : TokenId) :
    Builds first
      (withNode
        (withRun (withRun middle (arguments.map (·.label.node)))
          [middle.extra.size, middle.extra.size + arguments.length])
        ⟨.call, token, callee.label.node,
          (withRun middle (arguments.map (·.label.node))).extra.size⟩)
      (.call ⟨middle.nodes.size, token⟩ callee arguments) := by
  have runs := standsAt_withRuns middle (arguments.map (·.label.node)) []
    (middle.extra.size + arguments.length)
  have tiles := tiles_withHeader middle.extra (arguments.map (·.label.node)) []
  rw [List.length_map] at tiles
  have grown := @Grown.made middle _ ((Extends.append _ _).trans (.append _ _))
    ⟨.call, token, callee.label.node,
      (withRun middle (arguments.map (·.label.node))).extra.size⟩ tiles token
  refine ⟨?_, .call (getElem?_withNode _ _) runs.1 runs.2 ?_ ?_⟩
  · rw [Expression.labels]
    exact (calleeBuilt.grown.trans argumentsBuilt.grown).trans grown
  · exact (calleeBuilt.held.grow argumentsBuilt.grown).grow grown
  · exact fun argument member => (argumentsBuilt.held argument member).grow grown

theorem buildsAll_nil (progress : Progress) : BuildsAll progress progress [] where
  grown := .refl progress
  held := by simp

theorem BuildsAll.cons
    {argument : Expression Mark}
    {arguments : List (Expression Mark)}
    (built : Builds before middle argument)
    (rest : BuildsAll middle after arguments) :
    BuildsAll before after (argument :: arguments) where
  grown := built.grown.trans rest.grown
  held := by
    intro expression member
    rcases List.mem_cons.mp member with rfl | member
    · exact built.held.grow rest.grown
    · exact rest.held expression member

end Expressions

/-! ## Statements -/

/-- From one progress to another, just this whole expression is made. -/
structure BuildsWhole (before after : Progress) (whole : Whole Mark) : Prop where
  grown : Grown before after whole.labels
  held : whole.Holds after.nodes after.extra

/-- From one progress to another, just this statement is made. -/
structure BuildsStatement (before after : Progress) (statement : Statement Mark) : Prop where
  grown : Grown before after statement.labels
  held : statement.Holds after.nodes after.extra

/-- From one progress to another, just these statements are made. -/
structure BuildsStatements
    (before after : Progress)
    (statements : List (Statement Mark)) : Prop where
  grown : Grown before after (statements.map (·.labels)).flatten
  held : ∀ statement ∈ statements, statement.Holds after.nodes after.extra

/-- From one progress to another, just these identifiers are made. -/
structure BuildsNames (before after : Progress) (names : List Mark) : Prop where
  grown : Grown before after names
  held : ∀ name ∈ names, name.IsIdentifier after.nodes

section Statements

variable {first before middle after : Progress}

theorem Builds.whole
    {inner : Expression Mark}
    (built : Builds before middle inner)
    (token : TokenId) :
    BuildsWhole before (withNode middle ⟨.expression, token, inner.label.node, 0⟩)
      ⟨⟨middle.nodes.size, token⟩, inner⟩ := by
  have grown :=
    (Grown.refl middle).node ⟨.expression, token, inner.label.node, 0⟩ rfl token
  exact ⟨built.grown.trans grown, getElem?_withNode _ _, built.held.grow grown⟩

theorem buildsNames_leaf (before : Progress) :
    BuildsNames before (withLeaf before .identifier)
      [⟨before.nodes.size, before.position⟩] where
  grown := ((Grown.refl before).move _).node _ rfl _
  held := by
    intro name member
    rw [List.mem_singleton.mp member]
    exact getElem?_withNode _ _

theorem buildsNames_nil (progress : Progress) : BuildsNames progress progress [] where
  grown := .refl progress
  held := by simp

theorem BuildsNames.append
    {names others : List Mark}
    (built : BuildsNames before middle names)
    (rest : BuildsNames middle after others) :
    BuildsNames before after (names ++ others) where
  grown := built.grown.trans rest.grown
  held := by
    intro name member
    rcases List.mem_append.mp member with member | member
    · exact rest.grown.nodes.getElem?_eq_some (built.held name member)
    · exact rest.held name member

theorem BuildsWhole.binding
    {name : Mark}
    {value : Whole Mark}
    (nameBuilt : BuildsNames before middle [name])
    (valueBuilt : BuildsWhole middle after value)
    (isConstant : Bool)
    (token : TokenId) :
    BuildsStatement before
      (withNode after ⟨Tag.ofBinding isConstant, token, name.node, value.label.node⟩)
      (.binding ⟨after.nodes.size, token⟩ isConstant name value) := by
  have grown := (Grown.refl after).node
    ⟨Tag.ofBinding isConstant, token, name.node, value.label.node⟩
      (by cases isConstant <;> rfl) token
  refine ⟨?_, .binding (getElem?_withNode _ _) ?_ (valueBuilt.held.grow grown)⟩
  · rw [Statement.labels]
    exact (nameBuilt.grown.trans valueBuilt.grown).trans grown
  · exact (valueBuilt.grown.nodes.trans grown.nodes).getElem?_eq_some
      (nameBuilt.held name (by simp))

theorem BuildsWhole.assign
    {target value : Whole Mark}
    (targetBuilt : BuildsWhole before middle target)
    (valueBuilt : BuildsWhole middle after value)
    (token : TokenId) :
    BuildsStatement before
      (withNode after ⟨.assign, token, target.label.node, value.label.node⟩)
      (.assign ⟨after.nodes.size, token⟩ target value) := by
  have grown := (Grown.refl after).node
    ⟨.assign, token, target.label.node, value.label.node⟩ rfl token
  refine ⟨?_, .assign (getElem?_withNode _ _) ?_ (valueBuilt.held.grow grown)⟩
  · rw [Statement.labels]
    exact (targetBuilt.grown.trans valueBuilt.grown).trans grown
  · exact (targetBuilt.held.grow valueBuilt.grown).grow grown

theorem BuildsWhole.evaluate
    {expression : Whole Mark}
    (built : BuildsWhole before after expression)
    (token : TokenId) :
    BuildsStatement before
      (withNode after ⟨.evaluate, token, expression.label.node, 0⟩)
      (.evaluate ⟨after.nodes.size, token⟩ expression) := by
  have grown :=
    (Grown.refl after).node ⟨.evaluate, token, expression.label.node, 0⟩ rfl token
  refine ⟨?_, .evaluate (getElem?_withNode _ _) (built.held.grow grown)⟩
  rw [Statement.labels]
  exact built.grown.trans grown

theorem BuildsWhole.returned
    {value : Whole Mark}
    (built : BuildsWhole before after value)
    (token : TokenId) :
    BuildsStatement before (withNode after ⟨.return, token, value.label.node, 0⟩)
      (.return ⟨after.nodes.size, token⟩ (some value)) := by
  have grown := (Grown.refl after).node ⟨.return, token, value.label.node, 0⟩ rfl token
  refine ⟨?_, .return (getElem?_withNode _ _) ?_⟩
  · rw [Statement.labels]
    exact built.grown.trans grown
  · rintro whole ⟨⟩
    exact built.held.grow grown

theorem buildsStatement_return (before : Progress) (position : Nat) (token : TokenId) :
    BuildsStatement before
      (withNode { before with position } ⟨.return, token, Node.absent, 0⟩)
      (.return ⟨before.nodes.size, token⟩ none) := by
  refine ⟨?_, .return (getElem?_withNode _ _) (by simp)⟩
  rw [Statement.labels]
  exact ((Grown.refl before).move position).node _ rfl _

theorem buildsStatements_nil (progress : Progress) :
    BuildsStatements progress progress [] where
  grown := .refl progress
  held := by simp

theorem BuildsStatements.cons
    {statement : Statement Mark}
    {statements : List (Statement Mark)}
    (built : BuildsStatement before middle statement)
    (rest : BuildsStatements middle after statements) :
    BuildsStatements before after (statement :: statements) where
  grown := built.grown.trans rest.grown
  held := by
    intro other member
    rcases List.mem_cons.mp member with rfl | member
    · exact built.held.grow rest.grown
    · exact rest.held other member

theorem BuildsStatements.append
    {statements others : List (Statement Mark)}
    (built : BuildsStatements before middle statements)
    (rest : BuildsStatements middle after others) :
    BuildsStatements before after (statements ++ others) where
  grown := by
    rw [List.map_append, List.flatten_append]
    exact built.grown.trans rest.grown
  held := by
    rw [List.forall_mem_append]
    exact ⟨fun statement member => (built.held statement member).grow rest.grown, rest.held⟩

theorem BuildsStatements.block
    {statements : List (Statement Mark)}
    (built : BuildsStatements before after statements)
    (token : TokenId) :
    BuildsStatement before (withBlock after (statements.map (·.label.node)) token)
      (.block ⟨after.nodes.size, token⟩ statements) := by
  have grown := @Grown.made after _ (.append _ (statements.map (·.label.node)))
    ⟨.block, token, after.extra.size,
      after.extra.size + (statements.map (·.label.node)).length⟩ (tiles_run _ _) token
  have present : (withBlock after (statements.map (·.label.node)) token).nodes[
      after.nodes.size]? =
        some ⟨.block, token, after.extra.size, after.extra.size + statements.length⟩ := by
    rw [withBlock, List.length_map]
    exact getElem?_withNode _ _
  refine ⟨?_, .block present (.append_self _ _) ?_⟩
  · rw [Statement.labels]
    exact built.grown.trans grown
  · exact fun statement member => (built.held statement member).grow grown

/-- What is made inside of one more function is made outside of it too. -/
theorem BuildsStatement.leave
    {statement : Statement Mark}
    (built : BuildsStatement (entered before) after statement)
    {depth : Nat}
    (same : after.depth = depth + 1) :
    BuildsStatement before { after with depth } statement where
  grown :=
    { laidOut := built.grown.laidOut
      extra := built.grown.extra
      numbered := built.grown.numbered
      depth := Nat.succ.inj (same.symm.trans built.grown.depth) }
  held := built.held

theorem BuildsNames.function
    {name bodyMark : Mark}
    {parameters : List Mark}
    {body : List (Statement Mark)}
    (namesBuilt : BuildsNames before middle (name :: parameters))
    (bodyBuilt : BuildsStatement middle after (.block bodyMark body))
    (token : TokenId) :
    BuildsStatement before
      (withFunction after (parameters.map Mark.node) bodyMark.node token name.node)
      (.function ⟨after.nodes.size, token⟩ name parameters bodyMark body) := by
  have runs := standsAt_withRuns after (parameters.map Mark.node) [bodyMark.node]
    (after.extra.size + (parameters.map Mark.node).length)
  have grown := @Grown.made after _ ((Extends.append _ _).trans (.append _ _))
    ⟨.function, token, name.node, (withRun after (parameters.map Mark.node)).extra.size⟩
    (tiles_withHeader after.extra (parameters.map Mark.node) [bodyMark.node]) token
  have named : ∀ mark ∈ name :: parameters,
      mark.IsIdentifier (withFunction after (parameters.map Mark.node) bodyMark.node token
        name.node).nodes := fun mark member =>
    (bodyBuilt.grown.nodes.trans grown.nodes).getElem?_eq_some (namesBuilt.held mark member)
  refine ⟨?_, ?_⟩
  · have all := (namesBuilt.grown.trans bodyBuilt.grown).trans grown
    rw [Statement.labels] at all
    rw [Statement.labels]
    exact all
  · cases bodyBuilt.held.grow grown with
    | block bodyPresent bodyRun bodyHeld =>
        refine .function (getElem?_withNode _ _) ?_ runs.2 (named name (by simp))
          (fun parameter member => named parameter (by simp [member])) bodyPresent bodyRun
          bodyHeld
        have bounds := runs.1
        rw [List.length_map] at bounds
        rw [withFunction, List.length_map]
        exact bounds

end Statements

end Parser
end Frontend
