import Frontend.Proofs.Run
import Frontend.Proofs.Syntax.Abstract

/-!
# Phrases in flat arrays

Arrays hold a phrase if every node of it is where its mark says, with the main
token of the mark, and names its children by theirs. A node holds one phrase only,
so a phrase can be read back.
-/

namespace Frontend

/-- The node of the mark is an identifier. -/
def Mark.IsIdentifier (nodes : Array Node) (mark : Mark) : Prop :=
  nodes[mark.node]? = some ⟨.identifier, mark.token, 0, 0⟩

/-- Arrays of nodes and of words hold an expression. -/
inductive Expression.Holds (nodes : Array Node) (extra : Array Nat) :
    Expression Mark -> Prop
  | identifier
      {mark : Mark}
      (present : mark.IsIdentifier nodes) :
      Holds nodes extra (.identifier mark)
  | literal
      {mark : Mark}
      {base : BaseType}
      (present : nodes[mark.node]? = some ⟨.literal base, mark.token, 0, 0⟩) :
      Holds nodes extra (.literal mark base)
  | unary
      {mark : Mark}
      {operator : UnaryOperator}
      {operand : Expression Mark}
      (present : nodes[mark.node]? =
        some ⟨.unary operator, mark.token, operand.label.node, 0⟩)
      (operandHeld : Holds nodes extra operand) :
      Holds nodes extra (.unary mark operator operand)
  | binary
      {mark : Mark}
      {operator : BinaryOperator}
      {left right : Expression Mark}
      (present : nodes[mark.node]? =
        some ⟨.binary operator, mark.token, left.label.node, right.label.node⟩)
      (leftHeld : Holds nodes extra left)
      (rightHeld : Holds nodes extra right) :
      Holds nodes extra (.binary mark operator left right)
  | call
      {mark : Mark}
      {callee : Expression Mark}
      {arguments : List (Expression Mark)}
      {header start : Nat}
      (present : nodes[mark.node]? =
        some ⟨.call, mark.token, callee.label.node, header⟩)
      (bounds : StandsAt extra header [start, start + arguments.length])
      (run : StandsAt extra start (arguments.map (·.label.node)))
      (calleeHeld : Holds nodes extra callee)
      (argumentsHeld : ∀ argument ∈ arguments, Holds nodes extra argument) :
      Holds nodes extra (.call mark callee arguments)

/-- Arrays of nodes and of words hold a whole expression. -/
structure Whole.Holds
    (nodes : Array Node)
    (extra : Array Nat)
    (whole : Whole Mark) : Prop where
  present : nodes[whole.label.node]? =
    some ⟨.expression, whole.label.token, whole.inner.label.node, 0⟩
  innerHeld : whole.inner.Holds nodes extra

/-- The tag of the declaration of a constant or a variable. -/
def Tag.ofBinding (isConstant : Bool) : Tag :=
  if isConstant then .constant else .mutable

/-- The word that stands for the value of a return. -/
def Node.valueWord (value : Option (Whole Mark)) : Nat :=
  (value.map (·.label.node)).getD Node.absent

/-- Arrays of nodes and of words hold a statement. -/
inductive Statement.Holds (nodes : Array Node) (extra : Array Nat) :
    Statement Mark -> Prop
  | binding
      {mark name : Mark}
      {isConstant : Bool}
      {value : Whole Mark}
      (present : nodes[mark.node]? =
        some ⟨Tag.ofBinding isConstant, mark.token, name.node, value.label.node⟩)
      (nameHeld : name.IsIdentifier nodes)
      (valueHeld : value.Holds nodes extra) :
      Holds nodes extra (.binding mark isConstant name value)
  | assign
      {mark : Mark}
      {target value : Whole Mark}
      (present : nodes[mark.node]? =
        some ⟨.assign, mark.token, target.label.node, value.label.node⟩)
      (targetHeld : target.Holds nodes extra)
      (valueHeld : value.Holds nodes extra) :
      Holds nodes extra (.assign mark target value)
  | evaluate
      {mark : Mark}
      {expression : Whole Mark}
      (present : nodes[mark.node]? =
        some ⟨.evaluate, mark.token, expression.label.node, 0⟩)
      (expressionHeld : expression.Holds nodes extra) :
      Holds nodes extra (.evaluate mark expression)
  | return
      {mark : Mark}
      {value : Option (Whole Mark)}
      (present : nodes[mark.node]? =
        some ⟨.return, mark.token, Node.valueWord value, 0⟩)
      (valueHeld : ∀ whole ∈ value, whole.Holds nodes extra) :
      Holds nodes extra (.return mark value)
  | block
      {mark : Mark}
      {statements : List (Statement Mark)}
      {start : Nat}
      (present : nodes[mark.node]? =
        some ⟨.block, mark.token, start, start + statements.length⟩)
      (run : StandsAt extra start (statements.map (·.label.node)))
      (statementsHeld : ∀ statement ∈ statements, Holds nodes extra statement) :
      Holds nodes extra (.block mark statements)
  | function
      {mark name bodyMark : Mark}
      {parameters : List Mark}
      {body : List (Statement Mark)}
      {header start bodyStart : Nat}
      (present : nodes[mark.node]? = some ⟨.function, mark.token, name.node, header⟩)
      (bounds : StandsAt extra header
        [start, start + parameters.length, bodyMark.node])
      (run : StandsAt extra start (parameters.map Mark.node))
      (nameHeld : name.IsIdentifier nodes)
      (parametersHeld : ∀ parameter ∈ parameters, parameter.IsIdentifier nodes)
      (bodyPresent : nodes[bodyMark.node]? =
        some ⟨.block, bodyMark.token, bodyStart, bodyStart + body.length⟩)
      (bodyRun : StandsAt extra bodyStart (body.map (·.label.node)))
      (bodyHeld : ∀ statement ∈ body, Holds nodes extra statement) :
      Holds nodes extra (.function mark name parameters bodyMark body)

/-- Arrays of nodes and of words hold a program. -/
structure Program.Holds
    (nodes : Array Node)
    (extra : Array Nat)
    (program : Program Mark) : Prop where
  root : program.label.node = Tree.root
  exists_run : ∃ start,
    nodes[program.label.node]? =
        some ⟨.root, program.label.token, start, start + program.statements.length⟩ ∧
      StandsAt extra start (program.statements.map (·.label.node))
  statementsHeld : ∀ statement ∈ program.statements, statement.Holds nodes extra

/-! ## Arrays that change -/

/-- What the first array holds at these marks, the second one holds too. -/
def Keeps (nodes others : Array Node) (marks : List Mark) : Prop :=
  ∀ mark ∈ marks, ∀ node,
    nodes[mark.node]? = some node -> others[mark.node]? = some node

theorem Keeps.of_extends
    {nodes longer : Array Node}
    (extended : Extends nodes longer)
    (marks : List Mark) :
    Keeps nodes longer marks :=
  fun _ _ _ present => extended.getElem?_eq_some present

theorem Keeps.subset
    {nodes others : Array Node}
    {marks fewer : List Mark}
    (kept : Keeps nodes others marks)
    (subset : fewer ⊆ marks) :
    Keeps nodes others fewer :=
  fun mark member => kept mark (subset member)

variable {nodes others : Array Node} {extra longer : Array Nat}

/-- An expression is held by all arrays that keep its nodes. -/
theorem Expression.Holds.keep
    {expression : Expression Mark}
    (held : expression.Holds nodes extra)
    (kept : Keeps nodes others expression.labels)
    (extended : Extends extra longer) :
    expression.Holds others longer := by
  induction held with
  | @identifier mark present =>
      exact .identifier (kept mark (by simp [labels]) _ present)
  | @literal mark base present =>
      exact .literal (kept mark (by simp [labels]) _ present)
  | @unary mark operator operand present _ operandHolds =>
      refine .unary (kept mark (by simp [labels]) _ present) (operandHolds ?_)
      exact kept.subset (by simp [labels])
  | @binary mark operator left right present _ _ leftHolds rightHolds =>
      refine .binary (kept mark (by simp [labels]) _ present) (leftHolds ?_) (rightHolds ?_)
      · exact kept.subset (by simp [labels])
      · exact kept.subset (by simp [labels])
  | @call mark callee arguments header start present bounds run _ _ calleeHolds
      argumentsHold =>
      refine .call (kept mark (by simp [labels]) _ present) (bounds.extend extended)
        (run.extend extended) (calleeHolds ?_) fun argument member =>
          argumentsHold argument member ?_
      · exact kept.subset (by simp [labels])
      · refine kept.subset fun inner innerMember => ?_
        simp only [labels, List.mem_append, List.mem_flatten, List.mem_map]
        exact .inl (.inr ⟨_, ⟨argument, member, rfl⟩, innerMember⟩)

theorem Whole.Holds.keep
    {whole : Whole Mark}
    (held : whole.Holds nodes extra)
    (kept : Keeps nodes others whole.labels)
    (extended : Extends extra longer) :
    whole.Holds others longer where
  present := kept whole.label (by simp [labels]) _ held.present
  innerHeld := held.innerHeld.keep (kept.subset (by simp [labels])) extended

/-- A statement is held by all arrays that keep its nodes. -/
theorem Statement.Holds.keep
    {statement : Statement Mark}
    (held : statement.Holds nodes extra)
    (kept : Keeps nodes others statement.labels)
    (extended : Extends extra longer) :
    statement.Holds others longer := by
  induction held with
  | @binding mark name isConstant value present nameHeld valueHeld =>
      refine .binding (kept mark (by simp [labels]) _ present)
        (kept name (by simp [labels]) _ nameHeld) (valueHeld.keep ?_ extended)
      exact kept.subset fun inner member => by simp [labels, member]
  | @assign mark target value present targetHeld valueHeld =>
      refine .assign (kept mark (by simp [labels]) _ present)
        (targetHeld.keep ?_ extended) (valueHeld.keep ?_ extended)
      · exact kept.subset (by simp [labels])
      · exact kept.subset (by simp [labels])
  | @evaluate mark expression present expressionHeld =>
      refine .evaluate (kept mark (by simp [labels]) _ present)
        (expressionHeld.keep ?_ extended)
      exact kept.subset (by simp [labels])
  | @«return» mark value present valueHeld =>
      refine .return (kept mark (by simp [labels]) _ present) fun whole member => ?_
      refine (valueHeld whole member).keep (kept.subset ?_) extended
      simp [labels, Option.mem_def.mp member]
  | @block mark statements start present run _ statementsHold =>
      refine .block (kept mark (by simp [labels]) _ present) (run.extend extended)
        fun statement member => statementsHold statement member ?_
      refine kept.subset fun inner innerMember => ?_
      simp only [labels, List.mem_append, List.mem_flatten, List.mem_map]
      exact .inl ⟨_, ⟨statement, member, rfl⟩, innerMember⟩
  | @function mark name bodyMark parameters body header start bodyStart present bounds
      run nameHeld parametersHeld bodyPresent bodyRun _ bodyHold =>
      refine .function (kept mark (by simp [labels]) _ present)
        (bounds.extend extended) (run.extend extended)
        (kept name (by simp [labels]) _ nameHeld)
        (fun parameter member => kept parameter (by simp [labels, member]) _
          (parametersHeld parameter member))
        (kept bodyMark (by simp [labels]) _ bodyPresent) (bodyRun.extend extended)
        fun statement member => bodyHold statement member ?_
      refine kept.subset fun inner innerMember => ?_
      simp only [labels, List.mem_append, List.mem_cons, List.mem_flatten, List.mem_map]
      exact .inl (.inr (.inl ⟨_, ⟨statement, member, rfl⟩, innerMember⟩))

/-! ## Reading back -/

/-- Lists are equal if an injective view of their items is. -/
theorem eq_of_map_eq_map
    {Item View : Type}
    {view : Item -> View} :
    ∀ {items others : List Item},
      items.map view = others.map view ->
        (∀ item ∈ items, ∀ other ∈ others, view item = view other -> item = other) ->
          items = others
  | [], [], _, _ => rfl
  | item :: items, other :: others, same, injective => by
      simp only [List.map_cons, List.cons.injEq] at same
      rw [injective item (by simp) other (by simp) same.1,
        eq_of_map_eq_map same.2 fun item member other otherMember =>
          injective item (by simp [member]) other (by simp [otherMember])]

/-- A mark is known by its node, and what stands there is known too. -/
theorem Mark.eq_of_present
    {mark other : Mark}
    {node otherNode : Node}
    (present : nodes[mark.node]? = some node)
    (otherPresent : nodes[other.node]? = some otherNode)
    (token : node.token = mark.token)
    (otherToken : otherNode.token = other.token)
    (same : mark.node = other.node) :
    mark = other ∧ node = otherNode := by
  rw [same, otherPresent, Option.some.injEq] at present
  subst present
  refine ⟨?_, rfl⟩
  cases mark
  cases other
  simp_all

theorem Mark.IsIdentifier.unique
    {mark other : Mark}
    (present : mark.IsIdentifier nodes)
    (otherPresent : other.IsIdentifier nodes)
    (same : mark.node = other.node) :
    mark = other :=
  (Mark.eq_of_present present otherPresent rfl rfl same).1

/-- The bounds of a run determine its place and its length. -/
theorem bounds_unique
    {header start otherStart length otherLength : Nat}
    {words : List Nat}
    {otherWords : List Nat}
    (bounds : StandsAt extra header (start :: (start + length) :: words))
    (otherBounds :
      StandsAt extra header (otherStart :: (otherStart + otherLength) :: otherWords))
    (sameLength : words.length = otherWords.length) :
    start = otherStart ∧ length = otherLength ∧ words = otherWords := by
  have same := bounds.unique otherBounds (by simp [sameLength])
  simp only [List.cons.injEq] at same
  obtain ⟨sameStart, sameStop, sameWords⟩ := same
  exact ⟨sameStart, by omega, sameWords⟩

/-- A node holds at most one expression. -/
theorem Expression.Holds.unique
    {expression other : Expression Mark}
    (held : expression.Holds nodes extra)
    (otherHeld : other.Holds nodes extra)
    (same : expression.label.node = other.label.node) :
    expression = other := by
  -- The tag of the node tells which expression the other one is.
  induction held generalizing other with
  | identifier present =>
      cases otherHeld with
      | identifier otherPresent => rw [present.unique otherPresent same]
      | _ otherPresent => cases (Mark.eq_of_present present otherPresent rfl rfl same).2
  | literal present =>
      cases otherHeld with
      | literal otherPresent =>
          obtain ⟨rfl, sameNode⟩ := Mark.eq_of_present present otherPresent rfl rfl same
          cases sameNode
          rfl
      | _ otherPresent => cases (Mark.eq_of_present present otherPresent rfl rfl same).2
  | unary present _ operandUnique =>
      cases otherHeld with
      | unary otherPresent otherOperandHeld =>
          obtain ⟨rfl, sameNode⟩ := Mark.eq_of_present present otherPresent rfl rfl same
          obtain ⟨sameTag, -, sameOperand, -⟩ := Node.mk.inj sameNode
          cases sameTag
          rw [operandUnique otherOperandHeld sameOperand]
      | _ otherPresent => cases (Mark.eq_of_present present otherPresent rfl rfl same).2
  | binary present _ _ leftUnique rightUnique =>
      cases otherHeld with
      | binary otherPresent otherLeftHeld otherRightHeld =>
          obtain ⟨rfl, sameNode⟩ := Mark.eq_of_present present otherPresent rfl rfl same
          obtain ⟨sameTag, -, sameLeft, sameRight⟩ := Node.mk.inj sameNode
          cases sameTag
          rw [leftUnique otherLeftHeld sameLeft, rightUnique otherRightHeld sameRight]
      | _ otherPresent => cases (Mark.eq_of_present present otherPresent rfl rfl same).2
  | call present bounds run _ _ calleeUnique argumentsUnique =>
      cases otherHeld with
      | call otherPresent otherBounds otherRun otherCalleeHeld otherArgumentsHeld =>
          obtain ⟨rfl, sameNode⟩ := Mark.eq_of_present present otherPresent rfl rfl same
          obtain ⟨-, -, sameCallee, rfl⟩ := Node.mk.inj sameNode
          obtain ⟨rfl, sameLength, -⟩ := bounds_unique bounds otherBounds rfl
          have sameIds := run.unique otherRun (by simp [sameLength])
          rw [calleeUnique otherCalleeHeld sameCallee,
            eq_of_map_eq_map sameIds fun argument member other otherMember =>
              argumentsUnique argument member (otherArgumentsHeld other otherMember)]
      | _ otherPresent => cases (Mark.eq_of_present present otherPresent rfl rfl same).2

theorem Whole.Holds.unique
    {whole other : Whole Mark}
    (held : whole.Holds nodes extra)
    (otherHeld : other.Holds nodes extra)
    (same : whole.label.node = other.label.node) :
    whole = other := by
  obtain ⟨sameMark, sameNode⟩ :=
    Mark.eq_of_present held.present otherHeld.present rfl rfl same
  have sameInner := held.innerHeld.unique otherHeld.innerHeld (Node.mk.inj sameNode).2.2.1
  cases whole
  cases other
  simp_all

/-- The returns in a statement have values just where `decided` says so. Without
this, a value could be mistaken for the word of an absent one. -/
def Statement.ReturnsBy (decided : Mark -> Bool) (statement : Statement Mark) : Prop :=
  ∀ pair ∈ statement.returns, pair.2.isSome = decided pair.1

namespace Statement.ReturnsBy

variable
  {decided : Mark -> Bool}
  {mark name bodyMark : Mark}
  {parameters : List Mark}
  {statements : List (Statement Mark)}

theorem of_return
    {value : Option (Whole Mark)}
    (returnsBy : (Statement.return mark value).ReturnsBy decided) :
    value.isSome = decided mark :=
  returnsBy (mark, value) (by simp [returns])

theorem of_block
    (returnsBy : (Statement.block mark statements).ReturnsBy decided) :
    ∀ statement ∈ statements, statement.ReturnsBy decided := by
  intro statement member pair pairMember
  refine returnsBy pair ?_
  simp only [returns, List.mem_flatten, List.mem_map]
  exact ⟨_, ⟨statement, member, rfl⟩, pairMember⟩

theorem of_function
    (returnsBy :
      (Statement.function mark name parameters bodyMark statements).ReturnsBy decided) :
    ∀ statement ∈ statements, statement.ReturnsBy decided := by
  intro statement member pair pairMember
  refine returnsBy pair ?_
  simp only [returns, List.mem_flatten, List.mem_map]
  exact ⟨_, ⟨statement, member, rfl⟩, pairMember⟩

end Statement.ReturnsBy

/-- The values of two returns are the same if both are there or both are not. -/
theorem eq_of_valueWord_eq
    {value other : Option (Whole Mark)}
    (held : ∀ whole ∈ value, whole.Holds nodes extra)
    (otherHeld : ∀ whole ∈ other, whole.Holds nodes extra)
    (sameWord : Node.valueWord value = Node.valueWord other)
    (sameSide : value.isSome = other.isSome) :
    value = other := by
  cases value with
  | none => cases other <;> simp_all
  | some whole =>
      cases other with
      | none => simp at sameSide
      | some other =>
          simp only [Node.valueWord, Option.map_some, Option.getD_some] at sameWord
          rw [(held whole rfl).unique (otherHeld other rfl) sameWord]

/-- A node holds at most one statement whose returns are decided. -/
theorem Statement.Holds.unique
    {decided : Mark -> Bool}
    {statement other : Statement Mark}
    (held : statement.Holds nodes extra)
    (otherHeld : other.Holds nodes extra)
    (returnsBy : statement.ReturnsBy decided)
    (otherReturnsBy : other.ReturnsBy decided)
    (same : statement.label.node = other.label.node) :
    statement = other := by
  -- The tag of the node tells which statement the other one is.
  induction held generalizing other with
  | @binding mark name isConstant value present nameHeld valueHeld =>
      cases otherHeld with
      | @binding otherMark otherName otherConstant otherValue otherPresent otherNameHeld
          otherValueHeld =>
          obtain ⟨rfl, sameNode⟩ := Mark.eq_of_present present otherPresent rfl rfl same
          obtain ⟨sameTag, -, sameName, sameValue⟩ := Node.mk.inj sameNode
          have sameKind : isConstant = otherConstant := by
            cases isConstant <;> cases otherConstant <;> simp_all [Tag.ofBinding]
          rw [sameKind, nameHeld.unique otherNameHeld sameName,
            valueHeld.unique otherValueHeld sameValue]
      | _ otherPresent => cases isConstant <;> simp_all [label, Tag.ofBinding]
  | assign present targetHeld valueHeld =>
      cases otherHeld with
      | assign otherPresent otherTargetHeld otherValueHeld =>
          obtain ⟨rfl, sameNode⟩ := Mark.eq_of_present present otherPresent rfl rfl same
          obtain ⟨-, -, sameTarget, sameValue⟩ := Node.mk.inj sameNode
          rw [targetHeld.unique otherTargetHeld sameTarget,
            valueHeld.unique otherValueHeld sameValue]
      | @binding _ _ isConstant _ otherPresent =>
          cases isConstant <;> simp_all [label, Tag.ofBinding]
      | _ otherPresent => simp_all [label]
  | evaluate present expressionHeld =>
      cases otherHeld with
      | evaluate otherPresent otherExpressionHeld =>
          obtain ⟨rfl, sameNode⟩ := Mark.eq_of_present present otherPresent rfl rfl same
          rw [expressionHeld.unique otherExpressionHeld (Node.mk.inj sameNode).2.2.1]
      | @binding _ _ isConstant _ otherPresent =>
          cases isConstant <;> simp_all [label, Tag.ofBinding]
      | _ otherPresent => simp_all [label]
  | «return» present valueHeld =>
      cases otherHeld with
      | «return» otherPresent otherValueHeld =>
          obtain ⟨rfl, sameNode⟩ := Mark.eq_of_present present otherPresent rfl rfl same
          rw [eq_of_valueWord_eq valueHeld otherValueHeld (Node.mk.inj sameNode).2.2.1
            (returnsBy.of_return.trans otherReturnsBy.of_return.symm)]
      | @binding _ _ isConstant _ otherPresent =>
          cases isConstant <;> simp_all [label, Tag.ofBinding]
      | _ otherPresent => simp_all [label]
  | block present run _ statementsUnique =>
      cases otherHeld with
      | block otherPresent otherRun otherStatementsHeld =>
          obtain ⟨rfl, sameNode⟩ := Mark.eq_of_present present otherPresent rfl rfl same
          obtain ⟨-, -, rfl, sameStop⟩ := Node.mk.inj sameNode
          have sameIds := run.unique otherRun (by simp; omega)
          rw [eq_of_map_eq_map sameIds fun statement member other otherMember =>
            statementsUnique statement member (otherStatementsHeld other otherMember)
              (returnsBy.of_block statement member)
              (otherReturnsBy.of_block other otherMember)]
      | @binding _ _ isConstant _ otherPresent =>
          cases isConstant <;> simp_all [label, Tag.ofBinding]
      | _ otherPresent => simp_all [label]
  | function present bounds run nameHeld parametersHeld bodyPresent bodyRun _ bodyUnique =>
      cases otherHeld with
      | function otherPresent otherBounds otherRun otherNameHeld otherParametersHeld
          otherBodyPresent otherBodyRun otherBodyHeld =>
          obtain ⟨rfl, sameNode⟩ := Mark.eq_of_present present otherPresent rfl rfl same
          obtain ⟨-, -, sameName, rfl⟩ := Node.mk.inj sameNode
          obtain ⟨rfl, sameLength, sameBody⟩ := bounds_unique bounds otherBounds rfl
          have sameIds := run.unique otherRun (by simp [sameLength])
          obtain ⟨rfl, sameBodyNode⟩ := Mark.eq_of_present bodyPresent otherBodyPresent rfl rfl
            (by simpa using sameBody)
          obtain ⟨-, -, rfl, sameBodyStop⟩ := Node.mk.inj sameBodyNode
          have sameBodyIds := bodyRun.unique otherBodyRun (by simp; omega)
          rw [nameHeld.unique otherNameHeld sameName,
            eq_of_map_eq_map sameIds fun parameter member other otherMember =>
              (parametersHeld parameter member).unique
                (otherParametersHeld other otherMember),
            eq_of_map_eq_map sameBodyIds fun statement member other otherMember =>
              bodyUnique statement member (otherBodyHeld other otherMember)
                (returnsBy.of_function statement member)
                (otherReturnsBy.of_function other otherMember)]
      | @binding _ _ isConstant _ otherPresent =>
          cases isConstant <;> simp_all [label, Tag.ofBinding]
      | _ otherPresent => simp_all [label]

/-- A tree holds at most one program whose returns are decided. -/
theorem Program.Holds.unique
    {decided : Mark -> Bool}
    {program other : Program Mark}
    (held : program.Holds nodes extra)
    (otherHeld : other.Holds nodes extra)
    (returnsBy : ∀ statement ∈ program.statements, statement.ReturnsBy decided)
    (otherReturnsBy : ∀ statement ∈ other.statements, statement.ReturnsBy decided) :
    program = other := by
  obtain ⟨start, present, run⟩ := held.exists_run
  obtain ⟨otherStart, otherPresent, otherRun⟩ := otherHeld.exists_run
  obtain ⟨sameMark, sameNode⟩ := Mark.eq_of_present present otherPresent rfl rfl
    (held.root.trans otherHeld.root.symm)
  obtain ⟨-, -, rfl, sameStop⟩ := Node.mk.inj sameNode
  have sameIds := run.unique otherRun (by simp; omega)
  have sameStatements := eq_of_map_eq_map sameIds
    fun statement member other otherMember =>
      (held.statementsHeld statement member).unique
        (otherHeld.statementsHeld other otherMember)
        (returnsBy statement member) (otherReturnsBy other otherMember)
  cases program
  cases other
  simp_all

/-- The node of the mark has a value. -/
def Mark.hasValue (nodes : Array Node) (mark : Mark) : Bool :=
  nodes[mark.node]?.any fun node => node.left ≠ Node.absent

/-- While no node has the number that stands for an absent value, the nodes decide
which returns have one. -/
theorem Statement.Holds.returnsBy
    {statement : Statement Mark}
    (held : statement.Holds nodes extra)
    (small : nodes.size ≤ Node.absent) :
    statement.ReturnsBy (Mark.hasValue nodes) := by
  intro pair member
  induction held with
  | binding => simp [returns] at member
  | assign => simp [returns] at member
  | evaluate => simp [returns] at member
  | @«return» mark value present valueHeld =>
      simp only [returns, List.mem_singleton] at member
      subst member
      simp only [Mark.hasValue, present, Option.any_some]
      cases value with
      | none => simp [Node.valueWord]
      | some whole =>
          have inside := (Array.getElem?_eq_some_iff.mp (valueHeld whole rfl).present).1
          have different : whole.label.node ≠ Node.absent :=
            Nat.ne_of_lt (Nat.lt_of_lt_of_le inside small)
          simp [Node.valueWord, different]
  | block _ _ _ statementsReturn =>
      simp only [returns, List.mem_flatten, List.mem_map] at member
      obtain ⟨_, ⟨statement, statementMember, rfl⟩, member⟩ := member
      exact statementsReturn statement statementMember member
  | function _ _ _ _ _ _ _ _ bodyReturns =>
      simp only [returns, List.mem_flatten, List.mem_map] at member
      obtain ⟨_, ⟨statement, statementMember, rfl⟩, member⟩ := member
      exact bodyReturns statement statementMember member

end Frontend
