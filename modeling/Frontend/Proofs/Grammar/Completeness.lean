import Frontend.Proofs.Grammar.Growth
import Frontend.Proofs.Grammar.Soundness
import Frontend.Proofs.Grammar.Success

/-!
# Completeness of the parsers

Every phrase that is derived is read, and it is the phrase that is made. The proof
follows the derivation. For an expression of some level it says that reading one
above a looser floor comes to the point where the expression stands on the left
and the loop looks at the token after it.

Calls are nested at most five deep for each token that is left, so the bound on
their depth is never reached.
-/

namespace Frontend

namespace Stream

variable {stream : Stream}

/-- Induction over derivations of expressions. The arguments of a call come with
what holds of each of them. -/
@[elab_as_elim]
theorem IsExpression.inductionOn
    {motive : (level : Power) -> (start stop : Nat) -> (expression : Expression TokenId) ->
      stream.IsExpression level start stop expression -> Prop}
    (identifier : ∀ {place : Nat} (present : stream.kindAt? place = some .identifier),
      motive .primary place (place + 1) (.identifier place) (.identifier present))
    (literal : ∀ {place : Nat} {kind : Token.Kind} {base : BaseType}
        (present : stream.kindAt? place = some kind) (isLiteral : kind.IsLiteral base),
      motive .primary place (place + 1) (.literal place base) (.literal present isLiteral))
    (group : ∀ {start stop : Nat} {inner : Expression TokenId}
        (opened : stream.kindAt? start = some .openParen)
        (derived : stream.IsExpression .disjunction (start + 1) stop inner)
        (closed : stream.kindAt? stop = some .closeParen),
      motive .disjunction (start + 1) stop inner derived ->
        motive .primary start (stop + 1) inner (.group opened derived closed))
    (call : ∀ {start opening stop : Nat} {callee : Expression TokenId}
        {arguments : List (Expression TokenId)}
        (calleeDerived : stream.IsExpression .call start opening callee)
        (opened : stream.kindAt? opening = some .openParen)
        (argumentsDerived : stream.AreSeparated (stream.IsExpression .disjunction)
          (opening + 1) stop arguments)
        (closed : stream.kindAt? stop = some .closeParen),
      motive .call start opening callee calleeDerived ->
        stream.AreSeparated
            (fun start stop argument => ∃ derived, motive .disjunction start stop argument derived)
            (opening + 1) stop arguments ->
          motive .call start (stop + 1) (.call opening callee arguments)
            (.call calleeDerived opened argumentsDerived closed))
    (unary : ∀ {start stop : Nat} {operator : UnaryOperator} {operand : Expression TokenId}
        (present : stream.kindAt? start = some operator.kind)
        (derived : stream.IsExpression .unary (start + 1) stop operand),
      motive .unary (start + 1) stop operand derived ->
        motive .unary start stop (.unary start operator operand) (.unary present derived))
    (binary : ∀ {start place stop : Nat} {operator : BinaryOperator}
        {left right : Expression TokenId} {tighter : Power}
        (leftDerived : stream.IsExpression operator.level start place left)
        (present : stream.kindAt? place = some operator.kind)
        (above : tighter.rank = operator.level.rank + 1)
        (rightDerived : stream.IsExpression tighter (place + 1) stop right),
      motive operator.level start place left leftDerived ->
        motive tighter (place + 1) stop right rightDerived ->
          motive operator.level start stop (.binary place operator left right)
            (.binary leftDerived present above rightDerived))
    (ascend : ∀ {level tighter : Power} {start stop : Nat} {expression : Expression TokenId}
        (above : tighter.rank = level.rank + 1)
        (derived : stream.IsExpression tighter start stop expression),
      motive tighter start stop expression derived ->
        motive level start stop expression (.ascend above derived))
    {level : Power}
    {start stop : Nat}
    {expression : Expression TokenId}
    (derived : stream.IsExpression level start stop expression) :
    motive level start stop expression derived :=
  @IsExpression.rec stream motive
    (fun start stop arguments _ => stream.AreSeparated
      (fun start stop argument => ∃ derived, motive .disjunction start stop argument derived)
      start stop arguments)
    identifier literal group call unary binary ascend .none
    (fun derived item => .last ⟨derived, item⟩)
    (fun derived isComma _ item rest => .more ⟨derived, item⟩ isComma rest)
    level start stop expression derived

/-- Separated items are in order, if each of them is. -/
theorem AreSeparated.le
    {Item : Type}
    {IsItem : Nat -> Nat -> Item -> Prop}
    (ordered : ∀ {start stop item}, IsItem start stop item -> start ≤ stop)
    {start stop : Nat}
    {items : List Item}
    (separated : stream.AreSeparated IsItem start stop items) :
    start ≤ stop := by
  induction separated with
  | none => exact Nat.le_refl _
  | last derived => exact ordered derived
  | more derived _ _ ih =>
      exact Nat.le_trans (ordered derived) (Nat.le_of_succ_le ih)

section Derived

variable
  {level : Power}
  {start stop : Nat}
  {expression : Expression TokenId}
  (derived : stream.IsExpression level start stop expression)

include derived

/-- An expression has at least one token, and one follows it. -/
theorem IsExpression.bounds (ends : stream.Ends) :
    start < stop ∧ stop < stream.tokens.size := by
  induction derived using IsExpression.inductionOn with
  | identifier present => exact ⟨Nat.lt_succ_self _, ends.succ_lt_size present (by decide)⟩
  | literal present isLiteral =>
      exact ⟨Nat.lt_succ_self _, ends.succ_lt_size present (by cases isLiteral <;> decide)⟩
  | group _ _ closed inner => exact ⟨by omega, ends.succ_lt_size closed (by decide)⟩
  | call _ _ _ closed callee arguments =>
      have ordered := arguments.le fun ⟨_, bounded⟩ => Nat.le_of_lt bounded.1
      exact ⟨by omega, ends.succ_lt_size closed (by decide)⟩
  | unary _ _ operand => exact ⟨by omega, operand.2⟩
  | binary _ _ _ _ left right => exact ⟨by omega, right.2⟩
  | ascend _ _ inner => exact inner

/-- An expression starts with a token that has an entry in the table of operands. -/
theorem IsExpression.exists_operand :
    ∃ kind construct, stream.kindAt? start = some kind ∧
      Grammar.standard.operand kind = some construct := by
  induction derived using IsExpression.inductionOn with
  | identifier present => exact ⟨_, _, present, rfl⟩
  | literal present isLiteral =>
      exact ⟨_, .primary, present, by cases isLiteral <;> rfl⟩
  | group opened => exact ⟨_, _, opened, rfl⟩
  | call _ _ _ _ callee => exact callee
  | @unary _ _ operator _ present =>
      exact ⟨_, .operation, present, by cases operator <;> rfl⟩
  | binary _ _ _ _ left => exact left
  | ascend _ _ inner => exact inner

/-- An expression does not start with a token that no operand starts with. -/
theorem IsExpression.kindAt?_ne
    (kind : Token.Kind)
    (absent : Grammar.standard.operand kind = none) :
    stream.kindAt? start ≠ some kind := by
  obtain ⟨first, construct, present, found⟩ := derived.exists_operand
  rw [present]
  rintro ⟨⟩
  rw [absent] at found
  cases found

theorem IsExpression.ready
    {before : Progress}
    (starts : before.position = start)
    (ends : stream.Ends) :
    Parser.Ready stream before := by
  have bounded := derived.bounds ends
  rw [Parser.Ready, starts]
  omega

end Derived

end Stream

namespace Parser

variable {stream : Stream}

/-- A floor above which expressions of this level are read. -/
def Admits (floor level : Power) : Prop :=
  floor.rank < level.rank ∨
    (Power.unary.rank ≤ level.rank ∧ floor.rank ≤ Power.unary.rank)

/-- Calls may be nested this deep at a place, for an expression there. -/
def depthAt (stream : Stream) (place : Nat) : Nat :=
  5 * (stream.tokens.size - place) + 1

/-- Reading an expression leads to the token after a phrase, with the phrase on its
left. -/
def Leads
    (stream : Stream)
    (level : Power)
    (start stop : Nat)
    (expression : Expression TokenId) : Prop :=
  ∀ (depth : Nat) (before : Progress) (floor : Power),
    before.position = start -> depthAt stream start ≤ depth -> Admits floor level ->
      rankAt stream stop ≤ level.rank ->
        ∃ built after bound,
          Builds before after built ∧ built.map Mark.token = expression ∧
            after.position = stop ∧ listBound stream ≤ bound + (stop - start) ∧
            expr .standard stream (phraseWithin .standard stream depth) floor before =
              continuations .standard stream (phraseWithin .standard stream depth) floor
                bound built.label.node after

theorem exists_depth_eq {depth place : Nat} (deep : depthAt stream place ≤ depth) :
    ∃ rest, depth = rest + 1 :=
  Nat.exists_eq_succ_of_ne_zero (by rw [depthAt] at deep; omega)

/-- After a token, calls may be nested a few levels deeper than there is need for. -/
theorem deeper_succ
    {depth place : Nat}
    (inside : place < stream.tokens.size)
    (deep : depthAt stream place ≤ depth + 1)
    {need : Nat}
    (few : need ≤ 4) :
    depthAt stream (place + 1) + need ≤ depth := by
  rw [depthAt] at deep ⊢
  omega

/-- Calls may be nested deep enough for every statement. -/
theorem depthAt_add_le (place : Nat) :
    depthAt stream place + 3 ≤ waysPerToken * (stream.tokens.size + 1) := by
  rw [depthAt, waysPerToken]
  omega

section Expressions

variable
  {level : Power}
  {start stop : Nat}
  {expression : Expression TokenId}
  {before : Progress}

/-- An expression is read above a floor that the token after it does not exceed. -/
theorem Leads.exists_expr_eq
    (leads : Leads stream level start stop expression)
    (ends : stream.Ends)
    (derived : stream.IsExpression level start stop expression)
    {depth : Nat}
    {floor : Power}
    (starts : before.position = start)
    (deep : depthAt stream start + 1 ≤ depth)
    (admits : Admits floor level)
    (weak : rankAt stream stop ≤ level.rank)
    (stops : rankAt stream stop ≤ floor.rank) :
    ∃ built after,
      Builds before after built ∧ built.map Mark.token = expression ∧
        after.position = stop ∧
        phraseWithin .standard stream depth (.expr floor) before =
          .ok built.label.node after := by
  have bounded := derived.bounds ends
  obtain ⟨depth, rfl⟩ := Nat.exists_eq_add_of_le' (Nat.le_trans (Nat.le_add_left 1 _) deep)
  obtain ⟨built, after, bound, builds, same, stopped, enough, read⟩ :=
    leads depth before floor starts (Nat.le_of_succ_le_succ deep) admits weak
  refine ⟨built, after, builds, same, stopped, ?_⟩
  obtain ⟨bound, rfl⟩ : ∃ rest, bound = rest + 1 :=
    Nat.exists_eq_succ_of_ne_zero (by rw [listBound] at enough; omega)
  change expr .standard stream (phraseWithin .standard stream depth) floor before = _
  have ready : Ready stream after := by
    rw [Ready, stopped]
    exact bounded.2
  rw [read, continuations_eq_of_le ready (by rw [stopped]; exact stops)]

/-- An expression that stands where a whole one may end is read as a whole one. -/
theorem Leads.exists_lowest_eq
    (leads : Leads stream .disjunction start stop expression)
    (ends : stream.Ends)
    (derived : stream.IsExpression .disjunction start stop expression)
    {depth : Nat}
    (starts : before.position = start)
    (deep : depthAt stream start + 1 ≤ depth)
    (stops : rankAt stream stop = 0) :
    ∃ built after,
      Builds before after built ∧ built.map Mark.token = expression ∧
        after.position = stop ∧
        phraseWithin .standard stream depth (.expr .lowest) before =
          .ok built.label.node after :=
  leads.exists_expr_eq ends derived starts deep (.inl (by decide))
    (by rw [stops]; exact Nat.zero_le _) (Nat.le_of_eq stops)

/-- Arguments that are derived are read. -/
theorem exists_arguments_eq
    (ends : stream.Ends)
    {arguments : List (Expression TokenId)}
    (separated : stream.AreSeparated
      (fun start stop argument => ∃ _ : stream.IsExpression .disjunction start stop argument,
        Leads stream .disjunction start stop argument)
      start stop arguments)
    (closed : stream.kindAt? stop = some .closeParen)
    {depth bound : Nat}
    (starts : before.position = start)
    (deep : depthAt stream start + 1 ≤ depth)
    (enough : stop - start < bound) :
    ∃ built after,
      BuildsAll before after built ∧ built.map (·.map Mark.token) = arguments ∧
        after.position = stop ∧
        Parser.arguments stream (phraseWithin .standard stream depth) bound before =
          .ok (built.map (·.label.node)) after := by
  have steady := (allSteady_phraseWithin ends depth).lowest
  induction separated generalizing before bound with
  | none =>
      obtain ⟨bound, rfl⟩ := Nat.exists_eq_succ_of_ne_zero (Nat.ne_zero_of_lt enough)
      have closedHere : stream.kindAt? before.position = some .closeParen := by
        rw [starts]
        exact closed
      refine ⟨[], before, buildsAll_nil before, rfl, starts, ?_⟩
      exact lists_arguments.closed closedHere
  | @last start stop argument item =>
      obtain ⟨derived, leads⟩ := item
      have bounded := derived.bounds ends
      obtain ⟨bound, rfl⟩ : ∃ rest, bound = rest + 2 := Nat.exists_eq_add_of_le' (by omega)
      have stops : rankAt stream stop = 0 := by rw [rankAt_eq closed]; rfl
      obtain ⟨built, after, builds, rfl, rfl, read⟩ :=
        leads.exists_lowest_eq ends derived starts deep stops
      have starting := derived.kindAt?_ne .closeParen rfl
      rw [← starts] at starting
      refine ⟨[built], after, .cons builds (buildsAll_nil after), rfl, rfl, ?_⟩
      exact (lists_arguments.succ steady (derived.ready starts ends)).mpr (.inr ⟨starting, _, _,
        after, after, rfl, read, .inr ⟨closed, rfl⟩, lists_arguments.closed closed⟩)
  | @more start comma stop argument arguments item isComma rest ih =>
      obtain ⟨derived, leads⟩ := item
      have bounded := derived.bounds ends
      have ordered := rest.le fun ⟨derived, _⟩ => Nat.le_of_lt (derived.bounds ends).1
      obtain ⟨bound, rfl⟩ := Nat.exists_eq_succ_of_ne_zero (Nat.ne_zero_of_lt enough)
      have stops : rankAt stream comma = 0 := by rw [rankAt_eq isComma]; rfl
      obtain ⟨built, middle, builds, rfl, rfl, read⟩ :=
        leads.exists_lowest_eq ends derived starts deep stops
      have deeper : depthAt stream (middle.position + 1) + 1 ≤ depth := by
        rw [depthAt] at deep ⊢
        omega
      obtain ⟨others, after, buildsOthers, rfl, rfl, readOthers⟩ :=
        @ih (advanced middle) closed bound rfl deeper (by omega)
      have starting := derived.kindAt?_ne .closeParen rfl
      rw [← starts] at starting
      refine ⟨built :: others, after, .cons builds.advance buildsOthers, rfl, rfl, ?_⟩
      exact (lists_arguments.succ steady (derived.ready starts ends)).mpr (.inr ⟨starting, _, _,
        middle, advanced middle, rfl, read, .inl ⟨isComma, rfl⟩, readOthers⟩)

/-- What an operand makes leads to the token after it. -/
theorem leads_of_operand
    {kind : Token.Kind}
    {construct : Construct}
    (present : stream.kindAt? start = some kind)
    (found : Grammar.standard.operand kind = some construct)
    (read : ∀ (depth : Nat) (before : Progress), before.position = start ->
      depthAt stream start ≤ depth -> rankAt stream stop ≤ level.rank ->
        ∃ built after,
          Builds before after built ∧ built.map Mark.token = expression ∧
            after.position = stop ∧
            phraseWithin .standard stream depth (.construct construct) before =
              .ok built.label.node after) :
    Leads stream level start stop expression := by
  intro depth before floor starts deep _ weak
  obtain ⟨built, after, builds, same, stopped, operandRead⟩ :=
    read depth before starts deep weak
  refine ⟨built, after, listBound stream, builds, same, stopped, Nat.le_add_right _ _, ?_⟩
  rw [← starts] at present
  rw [expr_eq present found]
  simp only [bind, EStateM.bind, operandRead]

/-- Going on with the phrase on the left leads to the token after what is made. -/
theorem Leads.continue
    {place : Nat}
    {left : Expression TokenId}
    (leads : Leads stream level start place left)
    (longer : place < stop ∧ stop ≤ stream.tokens.size)
    (notUnary : level.rank ≠ Power.unary.rank)
    {kind : Token.Kind}
    {continuation : Continuation}
    (present : stream.kindAt? place = some kind)
    (found : Grammar.standard.continuation kind = some (level, continuation))
    (ordered : start ≤ place)
    (read : ∀ (depth : Nat) (first before : Progress) (built : Expression Mark),
      before.position = place -> depthAt stream place ≤ depth ->
        rankAt stream stop ≤ level.rank ->
          Builds first before built -> built.map Mark.token = left ->
            ∃ longer after,
              Builds first after longer ∧ longer.map Mark.token = expression ∧
                after.position = stop ∧
                phraseWithin .standard stream depth
                    (.continuation continuation built.label.node level) before =
                  .ok longer.label.node after) :
    Leads stream level start stop expression := by
  intro depth before floor starts deep admits weak
  have tight : floor.rank < level.rank := by
    rcases admits with lower | ⟨high, small⟩
    · exact lower
    · omega
  have exceeds : rankAt stream place ≤ level.rank := by
    simp only [rankAt_eq present, Grammar.power, found, Nat.le_refl]
  obtain ⟨leftBuilt, middle, bound, builds, same, rfl, enough, leftRead⟩ :=
    leads depth before floor starts deep admits exceeds
  have shallower : depthAt stream middle.position ≤ depth := by
    rw [depthAt] at deep ⊢
    omega
  obtain ⟨expression, after, longerBuilds, longerSame, stopped, longerRead⟩ :=
    read depth before middle leftBuilt rfl shallower weak builds same
  obtain ⟨bound, rfl⟩ : ∃ rest, bound = rest + 1 :=
    Nat.exists_eq_succ_of_ne_zero (by rw [listBound] at enough; omega)
  refine ⟨expression, after, bound, longerBuilds, longerSame, stopped, by omega, ?_⟩
  rw [leftRead, continuations_eq_of_lt present found tight]
  simp only [bind, EStateM.bind, longerRead]

/-- Every expression that is derived leads to the token after it. -/
theorem leads_of_isExpression
    (ends : stream.Ends)
    (valued : stream.HasValues)
    (derived : stream.IsExpression level start stop expression) :
    Leads stream level start stop expression := by
  induction derived using Stream.IsExpression.inductionOn with
  | @identifier place present =>
      refine leads_of_operand present rfl fun depth before starts deep _ => ?_
      obtain ⟨depth, rfl⟩ := exists_depth_eq deep
      rw [← starts] at present
      refine ⟨_, _, builds_identifier before, ?_, ?_, primary_eq valued present rfl⟩
      · rw [Expression.map, starts]
      · rw [← starts]; rfl
  | @literal place kind base present isLiteral =>
      have isLeaf : leafTag? kind = some (.literal base) :=
        leafTag?_eq_some.mpr (.inr ⟨base, isLiteral, rfl⟩)
      have found : Grammar.standard.operand kind = some .primary := by
        cases isLiteral <;> rfl
      refine leads_of_operand present found fun depth before starts deep _ => ?_
      obtain ⟨depth, rfl⟩ := exists_depth_eq deep
      rw [← starts] at present
      refine ⟨_, _, builds_literal before base, ?_, ?_, primary_eq valued present isLeaf⟩
      · rw [Expression.map, starts]
      · rw [← starts]; rfl
  | @group start stop inner opened derived closed leads =>
      refine leads_of_operand opened rfl fun depth before starts deep _ => ?_
      obtain ⟨depth, rfl⟩ := exists_depth_eq deep
      have stops : rankAt stream stop = 0 := by rw [rankAt_eq closed]; rfl
      have advances : (advanced before).position = start + 1 := congrArg (· + 1) starts
      obtain ⟨built, middle, builds, same, rfl, read⟩ :=
        leads.exists_lowest_eq ends derived advances
          (deeper_succ (Stream.lt_size_of_kindAt? opened) deep (by decide)) stops
      rw [← starts] at opened
      refine ⟨built, advanced middle, builds.of_advanced.advance, same, rfl, ?_⟩
      exact (grouping_eq_ok ends (allSteady_phraseWithin ends depth)
        (ready_of_kindAt? opened)).mpr ⟨opened, middle, read, closed, rfl⟩
  | @call start opening stop callee arguments calleeDerived opened argumentsDerived closed
      calleeLeads argumentsLead =>
      have calleeBounds := calleeDerived.bounds ends
      have ordered := argumentsLead.le fun argument =>
        Nat.le_of_lt ((exists_prop.mp argument).1.bounds ends).1
      have inside := Stream.lt_size_of_kindAt? closed
      refine calleeLeads.continue ⟨by omega, inside⟩ (by decide) opened rfl (by omega) ?_
      rintro depth first before calleeBuilt rfl deep - calleeBuilds rfl
      obtain ⟨depth, rfl⟩ := exists_depth_eq deep
      have bounded : stop - (before.position + 1) < listBound stream := by
        rw [listBound]
        omega
      have advances : (advanced before).position = before.position + 1 := rfl
      obtain ⟨built, middle, builds, rfl, rfl, read⟩ :=
        exists_arguments_eq ends argumentsLead closed advances
          (deeper_succ calleeBounds.2 deep (by decide)) bounded
      have argumentsBuilt : BuildsAll before (advanced middle) built :=
        ⟨builds.grown.of_advanced.move _, builds.held⟩
      refine ⟨_, _, calleeBuilds.call argumentsBuilt before.position, ?_, ?_,
        (call_eq_ok ends (steady_arguments ends (allSteady_phraseWithin ends depth) _)
          (ready_of_kindAt? opened)).mpr ⟨opened, _, middle, read, closed, rfl, ?_⟩⟩
      · rw [Expression.map]
      · rfl
      · rw [List.length_map]
        rfl
  | @unary start stop operator operand present derived leads =>
      have found : Grammar.standard.operand operator.kind = some .operation := by
        cases operator <;> rfl
      refine leads_of_operand present found fun depth before starts deep weak => ?_
      obtain ⟨depth, rfl⟩ := exists_depth_eq deep
      have advances : (advanced before).position = start + 1 := congrArg (· + 1) starts
      obtain ⟨built, middle, builds, rfl, rfl, read⟩ :=
        leads.exists_expr_eq ends derived advances
          (deeper_succ (Stream.lt_size_of_kindAt? present) deep (by decide))
          (.inr ⟨Nat.le_refl _, Nat.le_refl _⟩) weak weak
      rw [← starts] at present
      refine ⟨_, _, builds.of_advanced.unary operator before.position, ?_, rfl,
        (unaryOperation_eq_ok (ready_of_kindAt? present)).mpr
          ⟨operator, _, middle, present, read, rfl, rfl⟩⟩
      rw [Expression.map, starts]
  | @binary start place stop operator left right tighter leftDerived present above
      rightDerived leftLeads rightLeads =>
      have leftBounds := leftDerived.bounds ends
      have rightBounds := rightDerived.bounds ends
      have low := level_rank_le operator
      have notUnary : operator.level.rank ≠ Power.unary.rank :=
        Nat.ne_of_lt (Nat.lt_succ_of_le low)
      refine leftLeads.continue ⟨by omega, Nat.le_of_lt rightBounds.2⟩ notUnary present
        (continuation_operator operator) (Nat.le_of_lt leftBounds.1) ?_
      rintro depth first before leftBuilt rfl deep weak leftBuilds rfl
      obtain ⟨depth, rfl⟩ := exists_depth_eq deep
      have advances : (advanced before).position = before.position + 1 := rfl
      -- The right operand leaves operators of its own level to the loop.
      obtain ⟨built, middle, builds, rfl, rfl, read⟩ :=
        rightLeads.exists_expr_eq ends rightDerived advances
          (deeper_succ leftBounds.2 deep (by decide))
          (.inl (by rw [above]; exact Nat.lt_succ_self _))
          (by omega) weak
      refine ⟨_, _, leftBuilds.binary builds.of_advanced operator before.position, ?_, rfl,
        (binaryOperation_eq_ok (ready_of_kindAt? present)).mpr
          ⟨operator, _, middle, present, read, rfl, rfl⟩⟩
      rw [Expression.map]
  | @ascend level tighter start stop expression above derived leads =>
      intro depth before floor starts deep admits weak
      refine leads depth before floor starts deep ?_ (by omega)
      rcases admits with lower | ⟨high, small⟩
      · exact .inl (by omega)
      · exact .inr ⟨by omega, small⟩

end Expressions

section Statements

variable {start stop : Nat} {before : Progress}

theorem rankAt_of_isTerminator (terminates : stream.IsTerminator start stop) :
    rankAt stream start = 0 := by
  cases terminates with
  | semicolon present => rw [rankAt_eq present]; rfl
  | brace present => rw [rankAt_eq present]; rfl
  | endOfFile present => rw [rankAt_eq present]; rfl

/-- No statement ends where an expression starts. -/
theorem not_isTerminator_of_isExpression
    {level : Power}
    {expression : Expression TokenId}
    (derived : stream.IsExpression level start stop expression)
    (end_ : Nat) :
    ¬ stream.IsTerminator start end_ := by
  intro terminates
  cases terminates with
  | semicolon present => exact derived.kindAt?_ne .semicolon rfl present
  | brace present => exact derived.kindAt?_ne .closeCurly rfl present
  | endOfFile present => exact derived.kindAt?_ne .endOfFile rfl present

theorem le_of_isTerminator (terminates : stream.IsTerminator start stop) : start ≤ stop := by
  cases terminates with
  | semicolon => exact Nat.le_succ _
  | brace => exact Nat.le_refl _
  | endOfFile => exact Nat.le_refl _

/-- A token that starts a statement. -/
def Begins (kind : Token.Kind) : Prop :=
  kind ≠ .closeCurly ∧ kind ≠ .endOfFile ∧ kind ≠ .semicolon

theorem exists_statement_kind
    {level : Power}
    {expression : Expression TokenId}
    (derived : stream.IsExpression level start stop expression) :
    ∃ kind, stream.kindAt? start = some kind ∧ Begins kind ∧
      Grammar.standard.statement kind = none := by
  obtain ⟨kind, construct, present, found⟩ := derived.exists_operand
  refine ⟨kind, present, ?_, ?_⟩
  · refine ⟨?_, ?_, ?_⟩ <;> rintro rfl <;> cases found
  · cases kind <;> cases found <;> rfl

/-- A statement that is derived is read. -/
def IsRead
    (stream : Stream)
    (inFunction : Bool)
    (start stop : Nat)
    (statement : Statement TokenId) : Prop :=
  ∀ (depth : Nat) (before : Progress),
    before.position = start -> decide (0 < before.depth) = inFunction ->
      depthAt stream start + 3 ≤ depth ->
        ∃ built after,
          BuildsStatement before after built ∧ built.map Mark.token = statement ∧
            after.position = stop ∧
            phraseWithin .standard stream depth (.construct .statement) before =
              .ok built.label.node after

/-- Statements in a row, with further semicolons, of which something holds. -/
inductive AreSequenced
    (stream : Stream)
    (IsItem : Nat -> Nat -> Statement TokenId -> Prop) :
    Nat -> Nat -> List (Statement TokenId) -> Prop
  | none {start : Nat} :
      AreSequenced stream IsItem start start []
  | skip
      {start stop : Nat}
      {statements : List (Statement TokenId)}
      (present : stream.kindAt? start = some .semicolon)
      (rest : AreSequenced stream IsItem (start + 1) stop statements) :
      AreSequenced stream IsItem start stop statements
  | more
      {start middle stop : Nat}
      {statement : Statement TokenId}
      {statements : List (Statement TokenId)}
      (derived : IsItem start middle statement)
      (rest : AreSequenced stream IsItem middle stop statements) :
      AreSequenced stream IsItem start stop (statement :: statements)

theorem AreSequenced.le
    {IsItem : Nat -> Nat -> Statement TokenId -> Prop}
    (ordered : ∀ {start stop statement}, IsItem start stop statement -> start ≤ stop)
    {statements : List (Statement TokenId)}
    (sequenced : AreSequenced stream IsItem start stop statements) :
    start ≤ stop := by
  induction sequenced with
  | none => exact Nat.le_refl _
  | skip _ _ ih => exact Nat.le_of_succ_le ih
  | more derived _ ih =>
      exact Nat.le_trans (ordered derived) ih

/-- What reading asks of a statement in a row. -/
structure IsItem
    (stream : Stream)
    (inFunction : Bool)
    (start stop : Nat)
    (statement : Statement TokenId) : Prop where
  lt : start < stop
  begins : ∃ kind, stream.kindAt? start = some kind ∧ Begins kind
  isRead : IsRead stream inFunction start stop statement

section Lists

variable
  {depth : Nat}
  {closing : Token.Kind}
  {list : Nat -> Parser (List NodeId)}
  (lists : ListsStatements stream closing (phraseWithin .standard stream depth) list)
  {inFunction : Bool}
  {statements : List (Statement TokenId)}
  (sequenced : AreSequenced stream (IsItem stream inFunction) start stop statements)
  {bound : Nat}
  (starts : before.position = start)
  (inside : decide (0 < before.depth) = inFunction)
  (deep : depthAt stream start + 3 ≤ depth)

include lists sequenced starts inside deep

/-- Statements that are derived are read, whatever the list goes on with. -/
theorem ListsStatements.exists_append_eq (enough : stop - start ≤ bound) :
    ∃ built after rest,
      BuildsStatements before after built ∧ built.map (·.map Mark.token) = statements ∧
        after.position = stop ∧ bound ≤ rest + (stop - start) ∧
        list bound before =
          ((built.map (fun made : Statement Mark => made.label.node) ++ ·) <$>
            list rest) after := by
  induction sequenced generalizing before bound with
  | none =>
      refine ⟨[], before, bound, buildsStatements_nil before, rfl, starts, by omega, ?_⟩
      simp only [Functor.map, EStateM.map]
      cases list bound before <;> rfl
  | skip present rest ih =>
      have ordered := rest.le fun item => Nat.le_of_lt item.lt
      obtain ⟨bound, rfl⟩ : ∃ less, bound = less + 1 := Nat.exists_eq_add_of_le' (by omega)
      subst starts
      have shallower : depthAt stream (before.position + 1) + 3 ≤ depth := by
        rw [depthAt] at deep ⊢
        omega
      obtain ⟨built, after, left, builds, same, stopped, fewer, read⟩ :=
        @ih (advanced before) bound rfl inside shallower (by omega)
      refine ⟨built, after, left, ⟨builds.grown.of_advanced, builds.held⟩, same, stopped,
        by omega, ?_⟩
      rw [lists.skip present, read]
  | @more start middle stop statement statements item rest ih =>
      have ordered := rest.le fun item => Nat.le_of_lt item.lt
      have longer := item.lt
      obtain ⟨bound, rfl⟩ : ∃ less, bound = less + 1 := Nat.exists_eq_add_of_le' (by omega)
      obtain ⟨kind, present, notBrace, notEnd, notSemicolon⟩ := item.begins
      have goesOn : kind ≠ closing := by rcases lists.closes with rfl | rfl <;> assumption
      subst starts
      obtain ⟨first, next, firstBuilds, rfl, rfl, firstRead⟩ :=
        item.isRead depth before rfl inside deep
      have shallower : depthAt stream next.position + 3 ≤ depth := by
        rw [depthAt] at deep ⊢
        omega
      obtain ⟨built, after, left, builds, rfl, stopped, fewer, read⟩ :=
        @ih next bound rfl
          (by rw [firstBuilds.grown.depth]; exact inside) shallower (by omega)
      refine ⟨first :: built, after, left, .cons firstBuilds builds, rfl, stopped, by omega, ?_⟩
      rw [lists.more present goesOn notEnd notSemicolon]
      simp only [bind, EStateM.bind, firstRead, read, Functor.map, EStateM.map]
      cases list left after <;> rfl

/-- A list of statements that are derived is read. -/
theorem ListsStatements.exists_eq
    (closed : stream.kindAt? stop = some closing)
    (enough : stop - start < bound) :
    ∃ built after,
      BuildsStatements before after built ∧ built.map (·.map Mark.token) = statements ∧
        after.position = stop ∧
        list bound before = .ok (built.map (·.label.node)) after := by
  obtain ⟨built, after, rest, builds, same, rfl, fewer, read⟩ :=
    lists.exists_append_eq sequenced starts inside deep (Nat.le_of_lt enough)
  obtain ⟨rest, rfl⟩ : ∃ less, rest = less + 1 := Nat.exists_eq_add_of_le' (by omega)
  refine ⟨built, after, builds, same, rfl, ?_⟩
  simp only [read, Functor.map, EStateM.map, lists.closed closed, List.append_nil]

end Lists

/-- A statement with a table entry is read as the entry says. -/
theorem isRead_of_entry
    {inFunction : Bool}
    {statement : Statement TokenId}
    {kind : Token.Kind}
    {construct : Construct}
    (present : stream.kindAt? start = some kind)
    (found : Grammar.standard.statement kind = some construct)
    (read : ∀ (depth : Nat) (before : Progress),
      before.position = start -> decide (0 < before.depth) = inFunction ->
        depthAt stream start + 2 ≤ depth + 1 ->
          ∃ built after,
            BuildsStatement before after built ∧ built.map Mark.token = statement ∧
              after.position = stop ∧
              phraseStep .standard stream (phraseWithin .standard stream depth)
                  (.construct construct) before =
                .ok built.label.node after) :
    IsRead stream inFunction start stop statement := by
  intro depth before starts inside deep
  obtain ⟨depth, rfl⟩ : ∃ rest, depth = rest + 2 := Nat.exists_eq_add_of_le' (by omega)
  obtain ⟨built, after, builds, same, stopped, entryRead⟩ :=
    read depth before starts inside (by omega)
  refine ⟨built, after, builds, same, stopped, ?_⟩
  rw [← starts] at present
  change Parser.statement .standard stream (phraseWithin .standard stream (depth + 1)) before = _
  rw [statement_eq_of_entry present found]
  exact entryRead

section Kinds

variable
  (ends : stream.Ends)
  {inFunction : Bool}
  {statements : List (Statement TokenId)}
  {valueStop : Nat}
  {value : Whole TokenId}

include ends

/-- A block whose statements are derived is read, wherever it is asked for. -/
theorem exists_block_eq
    (opened : stream.kindAt? start = some .openCurly)
    (sequenced : AreSequenced stream (IsItem stream inFunction) (start + 1) stop statements)
    (closed : stream.kindAt? stop = some .closeCurly)
    {depth : Nat}
    (starts : before.position = start)
    (inside : decide (0 < before.depth) = inFunction)
    (deep : depthAt stream start ≤ depth + 1) :
    ∃ mark built after,
      BuildsStatement before after (.block mark built) ∧
        (Statement.block mark built).map Mark.token = .block start statements ∧
        after.position = stop + 1 ∧
        phraseStep .standard stream (phraseWithin .standard stream depth)
            (.construct .block) before =
          .ok mark.node after := by
  subst starts
  have bounded := Stream.lt_size_of_kindAt? closed
  have advances : (advanced before).position = before.position + 1 := rfl
  have enough : stop - (before.position + 1) < listBound stream := by
    rw [listBound]
    omega
  obtain ⟨built, middle, builds, rfl, rfl, read⟩ :=
    lists_blockStatements.exists_eq sequenced advances inside
      (deeper_succ (Stream.lt_size_of_kindAt? opened) deep (by decide)) closed enough
  have blockBuilt : BuildsStatements before (advanced middle) built :=
    ⟨builds.grown.of_advanced.move _, builds.held⟩
  refine ⟨_, _, _, blockBuilt.block before.position, ?_, rfl,
    (block_eq_ok ends (lists_blockStatements.steady_list ends (allSteady_phraseWithin ends depth) _)
      (ready_of_kindAt? opened)).mpr ⟨opened, _, middle, read, closed, rfl, rfl⟩⟩
  rw [Statement.map]

theorem isRead_return
    (present : stream.kindAt? start = some .returnWord)
    (ended : stream.IsTerminator (start + 1) stop) :
    IsRead stream true start stop (.return start none) := by
  refine isRead_of_entry present rfl fun depth before starts inside _ => ?_
  subst starts
  refine ⟨_, _, buildsStatement_return before stop before.position, ?_, rfl,
    returnStatement_eq_of_isTerminator ends (of_decide_eq_true inside) present ended⟩
  rw [Statement.map]
  rfl

section Located

variable (located : stream.HasLocations)

include located

/-- Parameters that are derived are read. -/
theorem exists_parameters_eq
    {names : List TokenId}
    (separated : stream.AreSeparated stream.IsName start stop names)
    (closed : stream.kindAt? stop = some .closeParen)
    {bound : Nat}
    (starts : before.position = start)
    (enough : stop - start < bound) :
    ∃ built after,
      BuildsNames before after built ∧ built.map Mark.token = names ∧
        after.position = stop ∧
        parameters stream bound before = .ok (built.map Mark.node) after := by
  have steady := steady_identifier ends "expected parameter name"
  induction separated generalizing before bound with
  | none =>
      obtain ⟨bound, rfl⟩ := Nat.exists_eq_succ_of_ne_zero (Nat.ne_zero_of_lt enough)
      rw [← starts] at closed
      exact ⟨[], before, buildsNames_nil before, rfl, starts, lists_parameters.closed closed⟩
  | last item =>
      obtain ⟨rfl, rfl, isName⟩ := item
      obtain ⟨bound, rfl⟩ : ∃ rest, bound = rest + 2 := Nat.exists_eq_add_of_le' (by omega)
      rw [← starts] at isName closed
      refine ⟨_, _, buildsNames_leaf before, ?_, ?_,
        (lists_parameters.succ steady (ready_of_kindAt? isName)).mpr (.inr
          ⟨by simp [isName], _, _, _, _, rfl, identifier_eq located isName _, .inr ⟨closed, rfl⟩,
            lists_parameters.closed closed⟩)⟩
      · rw [← starts]; rfl
      · rw [← starts]; rfl
  | @more start comma stop name names item isComma rest ih =>
      obtain ⟨rfl, rfl, isName⟩ := item
      have ordered := rest.le fun ⟨_, stops, _⟩ => by rw [stops]; exact Nat.le_succ _
      obtain ⟨bound, rfl⟩ := Nat.exists_eq_succ_of_ne_zero (Nat.ne_zero_of_lt enough)
      subst starts
      obtain ⟨built, after, builds, rfl, rfl, read⟩ :=
        @ih (advanced (withLeaf before .identifier)) closed bound rfl
          (by omega)
      refine ⟨⟨before.nodes.size, before.position⟩ :: built, after, ?_, rfl, rfl,
        (lists_parameters.succ steady (ready_of_kindAt? isName)).mpr (.inr
          ⟨by simp [isName], _, _, _, _, rfl, identifier_eq located isName _, .inl ⟨isComma, rfl⟩,
            read⟩)⟩
      exact (buildsNames_leaf before).append ⟨builds.grown.of_advanced, builds.held⟩

theorem isRead_function
    {middle : Nat}
    {names : List TokenId}
    {body : List (Statement TokenId)}
    (present : stream.kindAt? start = some .fnWord)
    (named : stream.kindAt? (start + 1) = some .identifier)
    (opened : stream.kindAt? (start + 2) = some .openParen)
    (namesDerived : stream.AreSeparated stream.IsName (start + 3) middle names)
    (closed : stream.kindAt? middle = some .closeParen)
    (bodyOpened : stream.kindAt? (middle + 1) = some .openCurly)
    (sequenced : AreSequenced stream (IsItem stream true) (middle + 2) stop body)
    (bodyClosed : stream.kindAt? stop = some .closeCurly) :
    IsRead stream inFunction start (stop + 1)
      (.function start (start + 1) names (middle + 1) body) := by
  refine isRead_of_entry present rfl fun depth before starts _ deep => ?_
  subst starts
  have ordered := namesDerived.le fun ⟨_, stops, _⟩ => by rw [stops]; exact Nat.le_succ _
  have bounded := Stream.lt_size_of_kindAt? bodyOpened
  have advances : (withFunctionName before).position = before.position + 3 := rfl
  have enough : middle - (before.position + 3) < listBound stream := by
    rw [listBound]
    omega
  obtain ⟨parameters, next, namesBuilt, rfl, rfl, namesRead⟩ :=
    exists_parameters_eq ends located namesDerived closed advances enough
  obtain ⟨depth, rfl⟩ : ∃ rest, depth = rest + 1 :=
    Nat.exists_eq_succ_of_ne_zero (by rw [depthAt] at deep; omega)
  have shallower : depthAt stream (next.position + 1) ≤ depth + 1 := by
    rw [depthAt] at deep ⊢
    omega
  have enters : (entered (advanced next)).position = next.position + 1 := rfl
  obtain ⟨bodyMark, built, last, bodyBuilt, same, stopped, bodyRead⟩ :=
    exists_block_eq ends bodyOpened sequenced bodyClosed enters (by simp [entered]) shallower
  have lastDepth : last.depth = next.depth + 1 := bodyBuilt.grown.depth
  have leaf := buildsNames_leaf (advanced before)
  have nameBuilt : BuildsNames before (withName before)
      [⟨before.nodes.size, before.position + 1⟩] := ⟨leaf.grown.of_advanced, leaf.held⟩
  have allBuilt : BuildsNames before (advanced next)
      (⟨before.nodes.size, before.position + 1⟩ :: parameters) :=
    nameBuilt.append ⟨namesBuilt.grown.of_advanced.move _, namesBuilt.held⟩
  have bodyWithin : phraseWithin .standard stream (depth + 1) (.construct .block)
      (entered (advanced next)) = .ok bodyMark.node last := bodyRead
  have functionRead :=
    function_eq located present named opened namesRead closed bodyWithin lastDepth
  refine ⟨_, _, allBuilt.function (bodyBuilt.leave lastDepth) before.position, ?_, stopped,
    functionRead⟩
  simp only [Statement.map, Statement.block.injEq] at same ⊢
  rw [same.1, same.2]

end Located

variable (valued : stream.HasValues)

include valued

/-- A whole expression that is derived is read. -/
theorem exists_expression_eq
    {whole : Whole TokenId}
    (derived : stream.IsWhole start stop whole)
    {depth : Nat}
    (starts : before.position = start)
    (deep : depthAt stream start + 2 ≤ depth)
    (stops : rankAt stream stop = 0) :
    ∃ built after,
      BuildsWhole before after built ∧ built.map Mark.token = whole ∧
        after.position = stop ∧
        phraseWithin .standard stream depth (.construct .expression) before =
          .ok built.label.node after := by
  obtain ⟨rfl, derived⟩ := derived
  obtain ⟨depth, rfl⟩ := Nat.exists_eq_add_of_le' (Nat.le_trans (Nat.le_add_left 1 _) deep)
  obtain ⟨built, middle, builds, same, rfl, read⟩ :=
    (leads_of_isExpression ends valued derived).exists_lowest_eq ends derived starts
      (Nat.le_of_succ_le_succ deep) stops
  refine ⟨_, _, builds.whole before.position, ?_, rfl,
    (expression_eq_ok (derived.ready starts ends)).mpr ⟨_, middle, read, rfl, rfl⟩⟩
  rw [Whole.map, same, starts]

theorem isRead_returnValue
    (present : stream.kindAt? start = some .returnWord)
    (valueDerived : stream.IsWhole (start + 1) valueStop value)
    (ended : stream.IsTerminator valueStop stop) :
    IsRead stream true start stop (.return start (some value)) := by
  refine isRead_of_entry present rfl fun depth before starts inside deep => ?_
  subst starts
  have shallower : depthAt stream (before.position + 1) + 2 ≤ depth := by
    have bounded := Stream.lt_size_of_kindAt? present
    rw [depthAt] at deep ⊢
    omega
  have advances : (advanced before).position = before.position + 1 := rfl
  obtain ⟨built, next, builds, rfl, rfl, read⟩ :=
    exists_expression_eq ends valued valueDerived advances shallower
      (rankAt_of_isTerminator ended)
  have valueBuilt : BuildsWhole before { next with position := stop } built :=
    ⟨builds.grown.of_advanced.move _, builds.held⟩
  refine ⟨_, _, valueBuilt.returned before.position, ?_, rfl,
    (returnStatement_eq_ok ends (allSteady_phraseWithin ends depth)
      (of_decide_eq_true inside) present
      (not_isTerminator_of_isExpression valueDerived.2)).mpr
        ⟨_, next, stop, read, ended, rfl, rfl⟩⟩
  rw [Statement.map]
  rfl

theorem isRead_evaluate
    (valueDerived : stream.IsWhole start valueStop value)
    (ended : stream.IsTerminator valueStop stop) :
    IsRead stream inFunction start stop (.evaluate start value) := by
  intro depth before starts _ deep
  obtain ⟨depth, rfl⟩ : ∃ rest, depth = rest + 1 := Nat.exists_eq_add_of_le' (by omega)
  obtain ⟨kind, present, -, found⟩ := exists_statement_kind valueDerived.2
  subst starts
  have shallower : depthAt stream before.position + 2 ≤ depth := by omega
  obtain ⟨built, next, builds, rfl, rfl, read⟩ :=
    exists_expression_eq ends valued valueDerived rfl shallower
      (rankAt_of_isTerminator ended)
  have notAssignment : stream.kindAt? next.position ≠ some .assignment := by
    intro isAssignment
    cases ended <;> simp_all
  have valueBuilt : BuildsWhole before { next with position := stop } built :=
    ⟨builds.grown.move _, builds.held⟩
  refine ⟨_, _, valueBuilt.evaluate before.position, ?_, rfl,
    (statement_eq_ok ends (allSteady_phraseWithin ends depth) present found).mpr
      ⟨_, next, read, .inl ⟨notAssignment, stop, ended, rfl, rfl⟩⟩⟩
  rw [Statement.map]

theorem isRead_assign
    {place : Nat}
    {target : Whole TokenId}
    (targetDerived : stream.IsWhole start place target)
    (assigned : stream.kindAt? place = some .assignment)
    (valueDerived : stream.IsWhole (place + 1) valueStop value)
    (ended : stream.IsTerminator valueStop stop) :
    IsRead stream inFunction start stop (.assign place target value) := by
  intro depth before starts _ deep
  obtain ⟨depth, rfl⟩ : ∃ rest, depth = rest + 1 := Nat.exists_eq_add_of_le' (by omega)
  obtain ⟨kind, present, -, found⟩ := exists_statement_kind targetDerived.2
  have bounded := targetDerived.2.bounds ends
  subst starts
  have shallower : depthAt stream before.position + 2 ≤ depth := by omega
  obtain ⟨builtTarget, middle, targetBuilds, rfl, rfl, targetRead⟩ :=
    exists_expression_eq ends valued targetDerived rfl shallower
      (by rw [rankAt_eq assigned]; rfl)
  have shallower : depthAt stream (middle.position + 1) + 2 ≤ depth := by
    rw [depthAt] at deep ⊢
    omega
  have advances : (advanced middle).position = middle.position + 1 := rfl
  obtain ⟨built, next, builds, rfl, rfl, read⟩ :=
    exists_expression_eq ends valued valueDerived advances shallower
      (rankAt_of_isTerminator ended)
  have valueBuilt : BuildsWhole middle { next with position := stop } built :=
    ⟨builds.grown.of_advanced.move _, builds.held⟩
  refine ⟨_, _, targetBuilds.assign valueBuilt middle.position, ?_, rfl,
    (statement_eq_ok ends (allSteady_phraseWithin ends depth) present found).mpr
      ⟨_, middle, targetRead, .inr ⟨assigned, _, next, stop, read, ended, rfl, rfl⟩⟩⟩
  rw [Statement.map]

variable (located : stream.HasLocations)

include located

theorem isRead_binding
    {isConstant : Bool}
    (present : stream.kindAt? start = some (Stream.bindingKind isConstant))
    (named : stream.kindAt? (start + 1) = some .identifier)
    (assigned : stream.kindAt? (start + 2) = some .assignment)
    (valueDerived : stream.IsWhole (start + 3) valueStop value)
    (ended : stream.IsTerminator valueStop stop) :
    IsRead stream inFunction start stop (.binding start isConstant (start + 1) value) := by
  have found : Grammar.standard.statement (Stream.bindingKind isConstant) = some .binding := by
    cases isConstant <;> rfl
  refine isRead_of_entry present found fun depth before starts _ deep => ?_
  have inside := Stream.lt_size_of_kindAt? assigned
  have shallower : depthAt stream (start + 3) + 2 ≤ depth := by
    rw [depthAt] at deep ⊢
    omega
  subst starts
  have advances : (advanced (withName before)).position = before.position + 3 := rfl
  obtain ⟨built, next, builds, rfl, rfl, read⟩ :=
    exists_expression_eq ends valued valueDerived advances shallower
      (rankAt_of_isTerminator ended)
  have leaf := buildsNames_leaf (advanced before)
  have nameBuilt : BuildsNames before (withName before)
      [⟨before.nodes.size, before.position + 1⟩] := ⟨leaf.grown.of_advanced, leaf.held⟩
  have valueBuilt : BuildsWhole (withName before) { next with position := stop } built :=
    ⟨builds.grown.of_advanced.move _, builds.held⟩
  have nextReady : Ready stream next := (valueDerived.2.bounds ends).2
  have bindingRead := binding_eq located present named assigned read ended nextReady
  refine ⟨_, _, valueBuilt.binding nameBuilt isConstant before.position, ?_, rfl, bindingRead⟩
  rw [Statement.map]

/-- Every statement that is derived is read, and so are the statements of a row. -/
theorem areSequenced_of_areStatements
    (derived : stream.AreStatements inFunction start stop statements) :
    AreSequenced stream (IsItem stream inFunction) start stop statements := by
  refine @Stream.AreStatements.rec stream
    (fun inFunction start stop statement _ => IsItem stream inFunction start stop statement)
    (fun inFunction start stop statements _ =>
      AreSequenced stream (IsItem stream inFunction) start stop statements)
    ?binding ?block ?function ?return_ ?returnValue ?evaluate ?assign ?none ?skip ?more
    inFunction start stop statements derived
  case binding =>
    intro inFunction isConstant start valueStop stop value present named assigned
      valueDerived ended
    have bounded := valueDerived.2.bounds ends
    have ordered := le_of_isTerminator ended
    refine ⟨by omega, ⟨_, present, ?_⟩,
      isRead_binding ends valued located present named assigned valueDerived ended⟩
    cases isConstant <;> exact ⟨by decide, by decide, by decide⟩
  case block =>
    intro inFunction start stop statements opened _ closed sequenced
    have ordered := sequenced.le fun item => Nat.le_of_lt item.lt
    refine ⟨by omega, ⟨_, opened, by decide, by decide, by decide⟩, ?_⟩
    refine isRead_of_entry opened rfl fun depth before starts inside deep => ?_
    obtain ⟨mark, built, after, builds, same, stopped, read⟩ :=
      exists_block_eq ends opened sequenced closed starts inside (Nat.le_of_add_right_le deep)
    exact ⟨_, after, builds, same, stopped, read⟩
  case function =>
    intro inFunction start middle stop names body present named opened namesDerived closed
      bodyOpened _ bodyClosed sequenced
    have ordered := namesDerived.le fun ⟨_, stops, _⟩ => by rw [stops]; exact Nat.le_succ _
    have bodyOrdered := sequenced.le fun item => Nat.le_of_lt item.lt
    exact ⟨by omega, ⟨_, present, by decide, by decide, by decide⟩,
      isRead_function ends located present named opened namesDerived closed bodyOpened
        sequenced bodyClosed⟩
  case return_ =>
    intro start stop present ended
    have ordered := le_of_isTerminator ended
    exact ⟨by omega, ⟨_, present, by decide, by decide, by decide⟩,
      isRead_return ends present ended⟩
  case returnValue =>
    intro start valueStop stop value present valueDerived ended
    have bounded := valueDerived.2.bounds ends
    have ordered := le_of_isTerminator ended
    exact ⟨by omega, ⟨_, present, by decide, by decide, by decide⟩,
      isRead_returnValue ends valued present valueDerived ended⟩
  case evaluate =>
    intro inFunction start valueStop stop value valueDerived ended
    have bounded := valueDerived.2.bounds ends
    have ordered := le_of_isTerminator ended
    obtain ⟨kind, present, begins, -⟩ := exists_statement_kind valueDerived.2
    exact ⟨by omega, ⟨kind, present, begins⟩, isRead_evaluate ends valued valueDerived ended⟩
  case assign =>
    intro inFunction start place valueStop stop target value targetDerived assigned
      valueDerived ended
    have targetBounded := targetDerived.2.bounds ends
    have bounded := valueDerived.2.bounds ends
    have ordered := le_of_isTerminator ended
    obtain ⟨kind, present, begins, -⟩ := exists_statement_kind targetDerived.2
    exact ⟨by omega, ⟨kind, present, begins⟩,
      isRead_assign ends valued targetDerived assigned valueDerived ended⟩
  case none => exact .none
  case skip => exact fun present _ rest => .skip present rest
  case more => exact fun _ _ item rest => .more item rest

end Kinds

end Statements

end Parser
end Frontend
