import Frontend.Proofs.Grammar.Growth
import Frontend.Proofs.Grammar.Success

/-!
# Soundness of the parsers

What a parser of phrases reads is derivable, and what it makes is the phrase that
is derived. The proof follows the calls of the parsers; `Means` says what is
stated of each request, and what holds of the calls at one depth is passed on to
the next one.

The loop that goes on with an expression keeps its left part at a level which the
next token does not exceed. So the part can stand on the left of that token, and
what the loop makes of it is again such a part.
-/

namespace Frontend

theorem Power.eq_of_rank_eq {power other : Power} (same : power.rank = other.rank) :
    power = other := by
  cases power <;> cases other <;> first | rfl | cases same

theorem Power.exists_rank_eq {rank : Nat} (small : rank ≤ 8) :
    ∃ power : Power, power.rank = rank := by
  match rank with
  | 0 => exact ⟨.lowest, rfl⟩
  | 1 => exact ⟨.disjunction, rfl⟩
  | 2 => exact ⟨.conjunction, rfl⟩
  | 3 => exact ⟨.relational, rfl⟩
  | 4 => exact ⟨.additive, rfl⟩
  | 5 => exact ⟨.multiplicative, rfl⟩
  | 6 => exact ⟨.unary, rfl⟩
  | 7 => exact ⟨.call, rfl⟩
  | 8 => exact ⟨.primary, rfl⟩

theorem Power.rank_le (power : Power) : power.rank ≤ Power.primary.rank := by
  cases power <;> decide

/-- What a tight level derives, all looser ones derive too. -/
theorem Stream.IsExpression.loosen
    {stream : Stream}
    {tight : Power}
    {start stop : Nat}
    {expression : Expression TokenId}
    (derived : stream.IsExpression tight start stop expression)
    {level : Power}
    (looser : level.rank ≤ tight.rank) :
    stream.IsExpression level start stop expression := by
  obtain ⟨steps, distance⟩ := Nat.exists_eq_add_of_le looser
  induction steps generalizing level with
  | zero =>
      rw [Power.eq_of_rank_eq (distance.symm : level.rank = tight.rank)]
      exact derived
  | succ steps ih =>
      have small : level.rank + 1 ≤ 8 := by
        have bound : tight.rank ≤ 8 := tight.rank_le
        omega
      obtain ⟨next, above⟩ := Power.exists_rank_eq small
      exact .ascend above (ih (by omega) (by omega))

namespace Parser

/-- Every operator continues an expression, as tightly as its level says. -/
theorem continuation_operator (operator : BinaryOperator) :
    Grammar.standard.continuation operator.kind = some (operator.level, .operation) := by
  cases operator <;> rfl

/-- An expression starts with a leaf, a parenthesis or an operator. -/
theorem operand_cases
    {kind : Token.Kind}
    {construct : Construct}
    (found : Grammar.standard.operand kind = some construct) :
    construct = .primary ∨ construct = .grouping ∨ construct = .operation := by
  cases kind <;> cases found <;> simp

theorem level_rank_le (operator : BinaryOperator) :
    operator.level.rank ≤ Power.multiplicative.rank := by
  cases operator <;> decide

theorem power_rank_le (kind : Token.Kind) :
    (Grammar.standard.power kind).rank ≤ Power.call.rank := by
  cases kind <;> decide

section Meaning

variable (stream : Stream)

/-- An expression of this level is read. -/
def ReadsLevel
    (level : Power)
    (before : Progress)
    (id : NodeId)
    (after : Progress) : Prop :=
  ∃ expression : Expression Mark,
    Builds before after expression ∧ expression.label.node = id ∧
      stream.IsExpression level before.position after.position
        (expression.map Mark.token)

/-- An expression is read that binds tighter than the floor, as far as it goes. What
an operator before it takes is itself such an operation or tighter. -/
def ReadsAbove
    (floor : Power)
    (before : Progress)
    (id : NodeId)
    (after : Progress) : Prop :=
  ∃ expression : Expression Mark,
    Builds before after expression ∧ expression.label.node = id ∧
      rankAt stream after.position ≤ floor.rank ∧
      ∀ level : Power, level.rank ≤ floor.rank + 1 -> level.rank ≤ Power.unary.rank ->
        stream.IsExpression level before.position after.position
          (expression.map Mark.token)

/-- A statement is read. -/
def ReadsStatement (before : Progress) (id : NodeId) (after : Progress) : Prop :=
  ∃ statement : Statement Mark,
    BuildsStatement before after statement ∧ statement.label.node = id ∧
      stream.IsStatement (decide (0 < before.depth)) before.position after.position
        (statement.map Mark.token)

/-- What it means that a request is answered. -/
def Means : Phrase -> Progress -> NodeId -> Progress -> Prop
  | .construct .primary, before, id, after => ReadsLevel stream .primary before id after
  | .construct .grouping, before, id, after => ReadsLevel stream .primary before id after
  | .construct .operation, before, id, after =>
      ReadsLevel stream .unary before id after ∧
        rankAt stream after.position ≤ Power.unary.rank
  | .construct .expression, before, id, after =>
      ∃ whole : Whole Mark,
        BuildsWhole before after whole ∧ whole.label.node = id ∧
          stream.IsWhole before.position after.position (whole.map Mark.token)
  | .construct .statement, before, id, after => ReadsStatement stream before id after
  | .construct .binding, before, id, after => ReadsStatement stream before id after
  | .construct .block, before, id, after =>
      ∃ mark statements,
        BuildsStatement before after (.block mark statements) ∧ mark.node = id ∧
          stream.IsStatement (decide (0 < before.depth)) before.position after.position
            ((Statement.block mark statements).map Mark.token)
  | .construct .function, before, id, after => ReadsStatement stream before id after
  | .construct .return, before, id, after => ReadsStatement stream before id after
  | .expr floor, before, id, after => ReadsAbove stream floor before id after
  | .continuation .operation left power, before, id, after =>
      ∃ operator right middle,
        stream.kindAt? before.position = some (BinaryOperator.kind operator) ∧
          ReadsAbove stream power (advanced before) right middle ∧
          id = middle.nodes.size ∧
          after = withNode middle ⟨.binary operator, before.position, left, right⟩
  | .continuation .call left _, before, id, after =>
      ∃ arguments middle stop,
        stream.kindAt? before.position = some .openParen ∧
          BuildsAll before middle arguments ∧
          stream.AreSeparated (stream.IsExpression .disjunction) (before.position + 1) stop
            (arguments.map (·.map Mark.token)) ∧
          stream.kindAt? stop = some .closeParen ∧
          id = middle.nodes.size ∧
          after = withNode
            (withRun (withRun { middle with position := stop + 1 }
                (arguments.map (·.label.node)))
              [middle.extra.size, middle.extra.size + arguments.length])
            ⟨.call, before.position, left,
              (withRun middle (arguments.map (·.label.node))).extra.size⟩

/-- The parsers of phrases do what their requests mean. -/
def AllSound (self : Phrase -> Parser NodeId) : Prop :=
  ∀ request before id after,
    Ready stream before -> self request before = .ok id after ->
      Suits stream request before -> Means stream request before id after

end Meaning

section Reading

variable
  {stream : Stream}
  {self : Phrase -> Parser NodeId}
  {before after : Progress}
  {id : NodeId}

theorem readsLevel_of_primary
    (ready : Ready stream before)
    (read : primary stream before = .ok id after) :
    ReadsLevel stream .primary before id after := by
  obtain ⟨kind, tag, present, found, rfl, rfl⟩ := of_primary_eq_ok ready read
  rcases leafTag?_eq_some.mp found with ⟨rfl, rfl⟩ | ⟨base, isLiteral, rfl⟩
  · refine ⟨_, builds_identifier before, rfl, ?_⟩
    rw [Expression.map]
    exact .identifier present
  · refine ⟨_, builds_literal before base, rfl, ?_⟩
    rw [Expression.map]
    exact .literal present isLiteral

theorem Builds.of_advanced
    {expression : Expression Mark}
    (built : Builds (advanced before) after expression) :
    Builds before after expression :=
  ⟨built.grown.of_advanced, built.held⟩

theorem Builds.advance
    {expression : Expression Mark}
    (built : Builds before after expression) :
    Builds before (advanced after) expression :=
  ⟨built.grown.move _, built.held⟩

theorem BuildsAll.move
    {expressions : List (Expression Mark)}
    (built : BuildsAll before after expressions)
    (position : Nat) :
    BuildsAll before { after with position } expressions :=
  ⟨built.grown.move position, built.held⟩

variable (ends : stream.Ends) (sound : AllSound stream self) (steady : AllSteady stream self)

include ends sound steady

theorem readsLevel_of_grouping
    (ready : Ready stream before)
    (read : grouping stream self before = .ok id after) :
    ReadsLevel stream .primary before id after := by
  obtain ⟨opened, middle, innerRead, closed, rfl⟩ := (grouping_eq_ok ends steady ready).mp read
  have openedReady := ready_advanced ends opened (by decide)
  obtain ⟨inner, built, same, -, derived⟩ :=
    sound _ _ _ _ openedReady innerRead trivial
  refine ⟨inner, built.of_advanced.advance, same, ?_⟩
  exact .group opened (derived .disjunction (by decide) (by decide)) closed

omit steady in
theorem readsLevel_of_unaryOperation
    (ready : Ready stream before)
    (read : unaryOperation stream self before = .ok id after) :
    ReadsLevel stream .unary before id after ∧
      rankAt stream after.position ≤ Power.unary.rank := by
  obtain ⟨operator, _, middle, present, operandRead, rfl, rfl⟩ :=
    (unaryOperation_eq_ok ready).mp read
  obtain ⟨operand, built, rfl, weak, derived⟩ :=
    sound _ _ _ _ (ready_advanced ends present operator.kind_ne_endOfFile) operandRead trivial
  refine ⟨⟨_, built.of_advanced.unary operator before.position, rfl, ?_⟩, weak⟩
  rw [Expression.map]
  exact .unary present (derived .unary (by decide) (by decide))

omit ends in
/-- Going on with an expression reads one that is tighter than the floor. -/
theorem readsAbove_of_continuations
    {floor : Power}
    {bound : Nat}
    {first : Progress}
    {expression : Expression Mark}
    {tight : Power}
    (ready : Ready stream before)
    (built : Builds first before expression)
    (derived : stream.IsExpression tight first.position before.position
      (expression.map Mark.token))
    (exceeds : rankAt stream before.position ≤ tight.rank)
    (above : ∀ level : Power, level.rank ≤ floor.rank + 1 ->
      level.rank ≤ Power.unary.rank -> level.rank ≤ tight.rank)
    (read : continuations .standard stream self floor bound expression.label.node before =
      .ok id after) :
    ReadsAbove stream floor first id after := by
  -- Along the loop the left part stays as tight as the token behind it, so that can take it.
  induction bound generalizing before expression tight with
  | zero => exact (endless_eq_ok.mp read).elim
  | succ bound ih =>
      by_cases weak : rankAt stream before.position ≤ floor.rank
      · rw [continuations_eq_of_le ready weak] at read
        cases read
        exact ⟨expression, built, rfl, weak, fun level low small =>
          derived.loosen (above level low small)⟩
      obtain ⟨kind, present⟩ := ready.exists_kindAt?
      rw [rankAt_eq present, Grammar.power] at weak exceeds
      cases found : Grammar.standard.continuation kind with
      | none => simp [found, Power.rank] at weak
      | some entry =>
          obtain ⟨power, continuation⟩ := entry
          simp only [found, Nat.not_le] at weak exceeds
          rw [continuations_eq_of_lt present found weak, bind_eq_ok] at read
          obtain ⟨longer, middle, longerRead, restRead⟩ := read
          have means := sound _ _ _ _ ready longerRead trivial
          have middleReady : Ready stream middle :=
            (steady _ _ _ _ ready longerRead trivial).ready
          cases continuation with
          | operation =>
              obtain ⟨operator, _, next, isOperator, ⟨right, rightBuilt, rfl, stops,
                rightDerived⟩, rfl, rfl⟩ := means
              rw [present, Option.some.injEq] at isOperator
              subst isOperator
              rw [continuation_operator, Option.some.injEq, Prod.mk.injEq] at found
              obtain ⟨rfl, -⟩ := found
              have lowLevel : operator.level.rank ≤ 5 := level_rank_le operator
              obtain ⟨tighter, oneAbove⟩ : ∃ tighter : Power,
                  tighter.rank = operator.level.rank + 1 :=
                Power.exists_rank_eq (by omega)
              refine ih middleReady
                (built.binary rightBuilt.of_advanced operator before.position) ?_ stops
                (fun level low _ => ?_) restRead
              · rw [Expression.map]
                refine .binary (derived.loosen exceeds) present oneAbove ?_
                exact rightDerived tighter (Nat.le_of_eq oneAbove)
                  (by rw [oneAbove]; exact Nat.succ_le_succ lowLevel)
              · omega
          | call =>
              obtain ⟨arguments, next, stop, opened, argumentsBuilt, argumentsDerived, closed,
                rfl, rfl⟩ := means
              rw [present, Option.some.injEq] at opened
              subst opened
              obtain ⟨rfl, -⟩ : Power.call = power ∧ Continuation.call = .call := by
                simpa [Grammar.standard] using found
              have callDerived : stream.IsExpression .call first.position (stop + 1)
                  ((Expression.call ⟨next.nodes.size, before.position⟩ expression
                    arguments).map Mark.token) := by
                rw [Expression.map]
                exact .call (derived.loosen exceeds) present argumentsDerived closed
              refine ih middleReady
                (built.call (argumentsBuilt.move (stop + 1)) before.position) callDerived ?_
                (fun level _ small => Nat.le_succ_of_le small) restRead
              -- No token binds tighter than a call.
              obtain ⟨kind, present⟩ := middleReady.exists_kindAt?
              rw [rankAt_eq present]
              exact power_rank_le kind

omit ends in
theorem readsAbove_of_expr
    (ready : Ready stream before)
    {floor : Power}
    (read : expr .standard stream self floor before = .ok id after) :
    ReadsAbove stream floor before id after := by
  obtain ⟨kind, construct, left, middle, present, found, leftRead, restRead⟩ :=
    (expr_eq_ok ready).mp read
  have suits : Suits stream (.construct construct) before := suits_of_operand found before
  have middleReady : Ready stream middle := (steady _ _ _ _ ready leftRead suits).ready
  have means := sound _ _ _ _ ready leftRead suits
  have rank_le : rankAt stream middle.position ≤ Power.call.rank := by
    obtain ⟨kind, present⟩ := middleReady.exists_kindAt?
    rw [rankAt_eq present]
    exact power_rank_le kind
  have primaryCase : ReadsLevel stream .primary before left middle ->
      ReadsAbove stream floor before id after := by
    rintro ⟨expression, built, rfl, derived⟩
    exact readsAbove_of_continuations sound steady middleReady built derived
      (Nat.le_succ_of_le rank_le) (fun level _ _ => level.rank_le) restRead
  rcases operand_cases found with rfl | rfl | rfl
  · exact primaryCase means
  · exact primaryCase means
  · obtain ⟨⟨expression, built, rfl, derived⟩, stops⟩ := means
    exact readsAbove_of_continuations sound steady middleReady built derived
      stops (fun level _ small => small) restRead

/-- Reading arguments makes just the arguments that are derived. -/
theorem areSeparated_of_arguments
    {bound : Nat}
    {ids : List NodeId}
    (ready : Ready stream before)
    (read : arguments stream self bound before = .ok ids after) :
    ∃ expressions : List (Expression Mark),
      BuildsAll before after expressions ∧
        expressions.map (·.label.node) = ids ∧
        stream.AreSeparated (stream.IsExpression .disjunction) before.position after.position
          (expressions.map (·.map Mark.token)) ∧
        stream.kindAt? after.position = some .closeParen := by
  induction bound generalizing before ids with
  | zero => exact (endless_eq_ok.mp read).elim
  | succ bound ih =>
      rcases (lists_arguments.succ steady.lowest ready).mp read with ⟨closed, rfl, rfl⟩ |
        ⟨-, argument, rest, middle, next, rfl, argumentRead, separated, restRead⟩
      · exact ⟨[], buildsAll_nil _, rfl, .none, closed⟩
      · obtain ⟨expression, built, rfl, -, derived⟩ := sound _ _ _ _ ready argumentRead trivial
        have item := derived .disjunction (by decide) (by decide)
        rcases separated with ⟨isComma, rfl⟩ | ⟨closed, rfl⟩
        · obtain ⟨expressions, allBuilt, rfl, allDerived, closed⟩ :=
            ih (ready_advanced ends isComma (by decide)) restRead
          exact ⟨expression :: expressions, .cons built.advance allBuilt, rfl,
            .more item isComma allDerived, closed⟩
        · -- The list ends here, so nothing is read after its last item.
          cases bound with
          | zero => exact (endless_eq_ok.mp restRead).elim
          | succ bound =>
              rw [lists_arguments.closed closed] at restRead
              cases restRead
              exact ⟨[expression], .cons built (buildsAll_nil _), rfl, .last item, closed⟩

omit sound steady in
/-- Reading parameters makes just the names that are derived. -/
theorem areSeparated_of_parameters
    {bound : Nat}
    {ids : List NodeId}
    (ready : Ready stream before)
    (read : parameters stream bound before = .ok ids after) :
    ∃ names : List Mark,
      BuildsNames before after names ∧ names.map Mark.node = ids ∧
        stream.AreSeparated stream.IsName before.position after.position
          (names.map Mark.token) ∧
        stream.kindAt? after.position = some .closeParen := by
  have steady := steady_identifier ends "expected parameter name"
  induction bound generalizing before ids with
  | zero => exact (endless_eq_ok.mp read).elim
  | succ bound ih =>
      rcases (lists_parameters.succ steady ready).mp read with ⟨closed, rfl, rfl⟩ |
        ⟨-, _, rest, _, next, rfl, named, separated, restRead⟩
      · exact ⟨[], buildsNames_nil _, rfl, .none, closed⟩
      · obtain ⟨isName, rfl, rfl⟩ := of_identifier_eq_ok ready named
        have item : stream.IsName before.position (before.position + 1) before.position :=
          ⟨rfl, rfl, isName⟩
        rcases separated with ⟨isComma, rfl⟩ | ⟨closed, rfl⟩
        · obtain ⟨names, built, rfl, derived, closed⟩ :=
            ih (ready_advanced ends isComma (by decide)) restRead
          refine ⟨⟨before.nodes.size, before.position⟩ :: names, ?_, rfl,
            .more item isComma derived, closed⟩
          exact (buildsNames_leaf before).append ⟨built.grown.of_advanced, built.held⟩
        · cases bound with
          | zero => exact (endless_eq_ok.mp restRead).elim
          | succ bound =>
              rw [lists_parameters.closed closed] at restRead
              cases restRead
              exact ⟨[⟨before.nodes.size, before.position⟩], buildsNames_leaf before, rfl,
                .last item, closed⟩

/-- Reading a list of statements makes just those that are derived. -/
theorem ListsStatements.areStatements
    {closing : Token.Kind}
    {list : Nat -> Parser (List NodeId)}
    (lists : ListsStatements stream closing self list)
    {bound : Nat}
    {ids : List NodeId}
    (ready : Ready stream before)
    (read : list bound before = .ok ids after) :
    ∃ statements : List (Statement Mark),
      BuildsStatements before after statements ∧
        statements.map (·.label.node) = ids ∧
        stream.AreStatements (decide (0 < before.depth)) before.position after.position
          (statements.map (·.map Mark.token)) ∧
        stream.kindAt? after.position = some closing := by
  induction bound generalizing before ids with
  | zero =>
      rw [lists.zero] at read
      exact (endless_eq_ok.mp read).elim
  | succ bound ih =>
      rcases (lists.succ ready).mp read with ⟨closed, rfl, rfl⟩ | ⟨isSemicolon, restRead⟩ |
        ⟨kind, -, -, -, -, _, rest, middle, rfl, statementRead, restRead⟩
      · exact ⟨[], buildsStatements_nil _, rfl, .none, closed⟩
      · obtain ⟨statements, built, rfl, derived, closed⟩ :=
          ih (ready_advanced ends isSemicolon (by decide)) restRead
        exact ⟨statements, ⟨built.grown.of_advanced, built.held⟩, rfl,
          .skip isSemicolon derived, closed⟩
      · obtain ⟨statement, built, rfl, derived⟩ := sound _ _ _ _ ready statementRead trivial
        obtain ⟨statements, allBuilt, rfl, allDerived, closed⟩ :=
          ih (steady _ _ _ _ ready statementRead trivial).ready restRead
        rw [built.grown.depth] at allDerived
        exact ⟨statement :: statements, .cons built allBuilt, rfl,
          .more derived allDerived, closed⟩

theorem means_block
    (ready : Ready stream before)
    (read : block stream self before = .ok id after) :
    Means stream (.construct .block) before id after := by
  obtain ⟨opened, ids, middle, statementsRead, closed, rfl, rfl⟩ :=
    (block_eq_ok ends (lists_blockStatements.steady_list ends steady _) ready).mp read
  obtain ⟨statements, built, rfl, derived, -⟩ :=
    lists_blockStatements.areStatements ends sound steady
      (ready_advanced ends opened (by decide)) statementsRead
  have moved : BuildsStatements before (advanced middle) statements :=
    ⟨built.grown.of_advanced.move _, built.held⟩
  refine ⟨_, statements, moved.block before.position, rfl, ?_⟩
  rw [Statement.map]
  exact .block opened derived closed

theorem readsStatement_of_binding
    {isConstant : Bool}
    (present : stream.kindAt? before.position = some (Stream.bindingKind isConstant))
    (read : binding stream self before = .ok id after) :
    ReadsStatement stream before id after := by
  obtain ⟨isName, isAssignment, _, next, stop, valueRead, terminates, rfl, rfl⟩ :=
    of_binding_eq_ok ends steady present read
  have assignedReady : Ready stream (advanced (withName before)) :=
    ready_advanced ends isAssignment (by decide)
  obtain ⟨value, built, rfl, derived⟩ := sound _ _ _ _ assignedReady valueRead trivial
  have named := buildsNames_leaf (advanced before)
  have nameBuilt : BuildsNames before (withName before)
      [⟨before.nodes.size, before.position + 1⟩] := ⟨named.grown.of_advanced, named.held⟩
  have valueBuilt : BuildsWhole (withName before) { next with position := stop } value :=
    ⟨built.grown.of_advanced.move _, built.held⟩
  refine ⟨_, valueBuilt.binding nameBuilt isConstant before.position, rfl, ?_⟩
  rw [Statement.map]
  exact .binding present isName isAssignment derived terminates

omit steady in
theorem readsStatement_of_function
    (present : stream.kindAt? before.position = some .fnWord)
    (read : function stream self before = .ok id after) :
    ReadsStatement stream before id after := by
  obtain ⟨isName, opened, ids, middle, _, last, depth, parametersRead, closed, bodyRead,
    lastDepth, rfl, rfl⟩ := of_function_eq_ok ends (steady_parameters ends _) present read
  have openedReady : Ready stream (withFunctionName before) :=
    ready_advanced ends opened (by decide)
  obtain ⟨parameters, parametersBuilt, rfl, parametersDerived, -⟩ :=
    areSeparated_of_parameters ends openedReady parametersRead
  have closedReady : Ready stream (entered (advanced middle)) :=
    ready_advanced ends closed (by decide)
  obtain ⟨bodyMark, body, bodyBuilt, rfl, bodyDerived⟩ :=
    sound _ _ _ _ closedReady bodyRead trivial
  have named := buildsNames_leaf (advanced before)
  have nameBuilt : BuildsNames before (withName before)
      [⟨before.nodes.size, before.position + 1⟩] := ⟨named.grown.of_advanced, named.held⟩
  have namesBuilt : BuildsNames before (advanced middle)
      (⟨before.nodes.size, before.position + 1⟩ :: parameters) :=
    nameBuilt.append ⟨parametersBuilt.grown.of_advanced.move _, parametersBuilt.held⟩
  refine ⟨_, namesBuilt.function (bodyBuilt.leave lastDepth) before.position, rfl, ?_⟩
  simp only [Statement.map] at bodyDerived ⊢
  obtain ⟨sameToken, stop, sameStop, bodyOpened, statementsDerived, bodyClosed⟩ :=
    bodyDerived.of_block
  rw [sameToken]
  change stream.IsStatement _ _ last.position _
  rw [sameStop]
  exact .function present isName opened parametersDerived closed bodyOpened
    statementsDerived bodyClosed

theorem readsStatement_of_returnStatement
    (present : stream.kindAt? before.position = some .returnWord)
    (read : returnStatement stream self before = .ok id after) :
    ReadsStatement stream before id after := by
  have inside := depth_pos_of_returnStatement read
  rw [ReadsStatement, decide_eq_true inside]
  by_cases terminates : ∃ stop, stream.IsTerminator (before.position + 1) stop
  · obtain ⟨stop, terminates⟩ := terminates
    rw [returnStatement_eq_of_isTerminator ends inside present terminates] at read
    cases read
    refine ⟨_, buildsStatement_return before stop before.position, rfl, ?_⟩
    rw [Statement.map]
    exact .return present terminates
  · obtain ⟨_, next, stop, valueRead, terminates, rfl, rfl⟩ :=
      (returnStatement_eq_ok ends steady inside present (not_exists.mp terminates)).mp read
    obtain ⟨value, built, rfl, derived⟩ :=
      sound _ _ _ _ (ready_advanced ends present (by decide)) valueRead trivial
    have valueBuilt : BuildsWhole before { next with position := stop } value :=
      ⟨built.grown.of_advanced.move _, built.held⟩
    refine ⟨_, valueBuilt.returned before.position, rfl, ?_⟩
    rw [Statement.map]
    exact .returnValue present derived terminates

theorem readsStatement_of_statement
    (ready : Ready stream before)
    (read : statement .standard stream self before = .ok id after) :
    ReadsStatement stream before id after := by
  obtain ⟨kind, present⟩ := ready.exists_kindAt?
  cases found : Grammar.standard.statement kind with
  | some construct =>
      rw [statement_eq_of_entry present found] at read
      have means := sound _ _ _ _ ready read (suits_of_statement present found)
      cases kind <;> cases found
      case openCurly.refl =>
        obtain ⟨mark, statements, built, rfl, derived⟩ := means
        exact ⟨_, built, rfl, derived⟩
      all_goals exact means
  | none =>
      obtain ⟨_, middle, targetRead, rest⟩ :=
        (statement_eq_ok ends steady present found).mp read
      obtain ⟨target, targetBuilt, rfl, targetDerived⟩ :=
        sound _ _ _ _ ready targetRead trivial
      rcases rest with ⟨-, stop, terminates, rfl, rfl⟩ |
        ⟨isAssignment, _, next, stop, valueRead, terminates, rfl, rfl⟩
      · have moved : BuildsWhole before { middle with position := stop } target :=
          ⟨targetBuilt.grown.move _, targetBuilt.held⟩
        refine ⟨_, moved.evaluate before.position, rfl, ?_⟩
        rw [Statement.map]
        exact .evaluate targetDerived terminates
      · obtain ⟨value, valueBuilt, rfl, valueDerived⟩ :=
          sound _ _ _ _ (ready_advanced ends isAssignment (by decide)) valueRead trivial
        have moved : BuildsWhole middle { next with position := stop } value :=
          ⟨valueBuilt.grown.of_advanced.move _, valueBuilt.held⟩
        refine ⟨_, targetBuilt.assign moved middle.position, rfl, ?_⟩
        rw [Statement.map]
        exact .assign targetDerived isAssignment valueDerived terminates

/-- One more level of calls keeps the parsers of phrases sound. -/
theorem allSound_phraseStep :
    AllSound stream (phraseStep .standard stream self) := by
  intro request before id after ready read suits
  match request with
  | .construct .primary => exact readsLevel_of_primary ready read
  | .construct .operation => exact readsLevel_of_unaryOperation ends sound ready read
  | .construct .grouping => exact readsLevel_of_grouping ends sound steady ready read
  | .construct .expression =>
      obtain ⟨_, middle, innerRead, rfl, rfl⟩ := (expression_eq_ok ready).mp read
      obtain ⟨inner, built, rfl, -, derived⟩ := sound _ _ _ _ ready innerRead trivial
      exact ⟨_, built.whole before.position, rfl, rfl,
        derived .disjunction (by decide) (by decide)⟩
  | .construct .statement => exact readsStatement_of_statement ends sound steady ready read
  | .construct .binding =>
      obtain ⟨isConstant, present⟩ := suits
      exact readsStatement_of_binding ends sound steady present read
  | .construct .block => exact means_block ends sound steady ready read
  | .construct .function => exact readsStatement_of_function ends sound suits read
  | .construct .return =>
      exact readsStatement_of_returnStatement ends sound steady suits read
  | .expr floor => exact readsAbove_of_expr sound steady ready read
  | .continuation .operation left power =>
      obtain ⟨operator, right, middle, present, rightRead, rfl, rfl⟩ :=
        (binaryOperation_eq_ok ready).mp read
      exact ⟨operator, right, middle, present,
        sound _ _ _ _ (ready_advanced ends present operator.kind_ne_endOfFile) rightRead trivial,
        rfl, rfl⟩
  | .continuation .call left power =>
      obtain ⟨opened, _, middle, argumentsRead, closed, rfl, rfl⟩ :=
        (call_eq_ok ends (steady_arguments ends steady _) ready).mp read
      obtain ⟨arguments, built, rfl, derived, -⟩ :=
        areSeparated_of_arguments ends sound steady
          (ready_advanced ends opened (by decide)) argumentsRead
      rw [List.length_map]
      exact ⟨arguments, middle, middle.position, opened,
        ⟨built.grown.of_advanced, built.held⟩, derived, closed, rfl, rfl⟩

omit sound steady in
/-- The parsers of phrases are sound. -/
theorem allSound_phraseWithin (depth : Nat) :
    AllSound stream (phraseWithin .standard stream depth) := by
  induction depth with
  | zero =>
      intro request before id after _ read
      exact (endless_eq_ok.mp read).elim
  | succ depth ih =>
      exact allSound_phraseStep ends ih (allSteady_phraseWithin ends depth)

end Reading

end Parser
end Frontend
