import Frontend.Proofs.Grammar.Stuck

/-!
# Finishing what was read

Where a parser of phrases gets stuck, what it has read can be finished. The proof follows
the calls of the parsers; `Finishes` says what it means for each request, and what holds of
the calls at one depth is passed on to the next one.

An operand is finished by an identifier, a statement by a semicolon, and what has been
opened by what closes it. Where a statement cannot start, the list of statements ends.
-/

namespace Frontend

/-- The expression can stand where operators bind tighter than the floor. -/
def Stream.IsAbove
    (stream : Stream)
    (floor : Power)
    (start stop : Nat)
    (expression : Expression TokenId) : Prop :=
  ∀ level : Power, level.rank ≤ floor.rank + 1 -> level.rank ≤ Power.unary.rank ->
    stream.IsExpression level start stop expression

/-- What a tight level derives can stand above every floor below it. -/
theorem Stream.IsExpression.isAbove
    {stream : Stream}
    {floor tight : Power}
    {start stop : Nat}
    {expression : Expression TokenId}
    (derived : stream.IsExpression tight start stop expression)
    (above : floor.rank < tight.rank ∨ Power.unary.rank ≤ tight.rank) :
    stream.IsAbove floor start stop expression := by
  intro level low small
  refine derived.loosen ?_
  rcases above with above | above
  · exact Nat.le_trans low above
  · exact Nat.le_trans small above

/-- An operator takes what is tighter than itself. -/
theorem Stream.IsExpression.operate
    {stream : Stream}
    {operator : BinaryOperator}
    {tight : Power}
    {start place stop : Nat}
    {left right : Expression TokenId}
    (leftDerived : stream.IsExpression tight start place left)
    (exceeds : operator.level.rank ≤ tight.rank)
    (present : stream.kindAt? place = some operator.kind)
    (rightAbove : stream.IsAbove operator.level (place + 1) stop right) :
    stream.IsExpression operator.level start stop (.binary place operator left right) := by
  have low : operator.level.rank + 1 ≤ Power.unary.rank :=
    Nat.succ_le_succ (Parser.level_rank_le operator)
  obtain ⟨tighter, oneAbove⟩ : ∃ tighter : Power, tighter.rank = operator.level.rank + 1 :=
    Power.exists_rank_eq (Nat.le_trans low (by decide))
  exact .binary (leftDerived.loosen exceeds) present oneAbove
    (rightAbove tighter (Nat.le_of_eq oneAbove) (oneAbove ▸ low))

/-- A list of statements ends at this place. -/
def Stream.IsClosed (stream : Stream) (place : Nat) : Prop :=
  stream.kindAt? place = some .closeCurly ∨ stream.kindAt? place = some .endOfFile

namespace Parser

/-- Only operators continue an expression with an operand. -/
theorem exists_operator
    {kind : Token.Kind}
    {power : Power}
    (found : Grammar.standard.continuation kind = some (power, .operation)) :
    ∃ operator : BinaryOperator, kind = operator.kind ∧ power = operator.level := by
  have isOperator : ∃ operator : BinaryOperator, kind = operator.kind := by
    cases kind <;> simp [Grammar.standard] at found
    all_goals exact ⟨_, BinaryOperator.ofKind?_eq_some.mp rfl⟩
  obtain ⟨operator, rfl⟩ := isOperator
  rw [continuation_operator, Option.some.injEq, Prod.mk.injEq] at found
  exact ⟨operator, rfl, found.1.symm⟩

/-- Only a parenthesis continues an expression with arguments. -/
theorem eq_openParen
    {kind : Token.Kind}
    {power : Power}
    (found : Grammar.standard.continuation kind = some (power, .call)) :
    kind = .openParen ∧ power = .call := by
  cases kind <;> simp [Grammar.standard] at found ⊢
  exact found.symm

theorem rankAt_le
    {stream : Stream}
    {progress : Progress}
    (ready : Ready stream progress) :
    rankAt stream progress.position ≤ Power.call.rank := by
  obtain ⟨kind, present⟩ := ready.exists_kindAt?
  rw [rankAt_eq present]
  exact power_rank_le kind

section Requests

variable (stream : Stream)

/-- The phrase is asked for where the tables ask for it. -/
def Asked : Phrase -> Progress -> Prop
  | .continuation continuation _ power, progress =>
      ∃ kind, stream.kindAt? progress.position = some kind ∧
        Grammar.standard.continuation kind = some (power, continuation)
  | request, progress => Suits stream request progress

/-- The phrase that was asked for is finished in another stream. -/
def Finishes : Phrase -> Progress -> Stream -> Nat -> Prop
  | .construct .primary, before, other, stop
  | .construct .grouping, before, other, stop =>
      ∃ expression, other.IsExpression .primary before.position stop expression
  | .construct .operation, before, other, stop =>
      ∃ expression, other.IsExpression .unary before.position stop expression
  | .construct .expression, before, other, stop =>
      ∃ whole, other.IsWhole before.position stop whole
  | .construct .block, before, other, stop =>
      ∃ token statements,
        other.IsStatement (decide (0 < before.depth)) before.position stop
          (.block token statements)
  | .construct _, before, other, stop =>
      ∃ statement, other.IsStatement (decide (0 < before.depth)) before.position stop statement
  | .expr floor, before, other, stop =>
      ∃ expression, other.IsAbove floor before.position stop expression
  | .continuation .operation _ power, before, other, stop =>
      ∃ operator right,
        power = BinaryOperator.level operator ∧
          other.kindAt? before.position = some operator.kind ∧
          other.IsAbove power (before.position + 1) stop right
  | .continuation .call _ _, before, other, stop =>
      ∃ last arguments,
        stop = last + 1 ∧
          other.kindAt? before.position = some .openParen ∧
          other.AreSeparated (other.IsExpression .disjunction) (before.position + 1) last
            arguments ∧
          other.kindAt? last = some .closeParen

/-- Reading is stuck in a phrase that can be finished. -/
def IsStuckIn (request : Phrase) (before : Progress) (diagnostic : Diagnostic) (place : Nat) :
    Prop :=
  stream.IsStuck before.position place diagnostic (Finishes request before)

/-- Where the parsers of phrases fail, they are stuck in what was asked for. -/
def AllStuck (self : Phrase -> Parser NodeId) : Prop :=
  ∀ request before, Ready stream before -> Asked stream request before ->
    Fails (self request) before (IsStuckIn stream request before)

end Requests

/-- Reading is stuck in a list in parentheses that can be finished. -/
def IsStuckInList
    {Item : Type}
    (stream : Stream)
    (IsItem : Stream -> Nat -> Nat -> Item -> Prop)
    (start : Nat)
    (diagnostic : Diagnostic)
    (place : Nat) : Prop :=
  stream.IsStuck start place diagnostic fun other stop =>
    ∃ items, other.AreSeparated (IsItem other) start stop items

/-- An unfinished list ends with the item that is finished. Once it is closed, nothing more
is asked for. -/
theorem ListsItems.fails_list
    {stream : Stream}
    {Item : Type}
    {IsItem : Stream -> Nat -> Nat -> Item -> Prop}
    {item : Parser NodeId}
    {reason : String}
    {list : Nat -> Parser (List NodeId)}
    (lists : ListsItems stream item reason list)
    (ends : stream.Ends)
    (carried : ∀ {other place start stop value}, stream.Carries other 0 place ->
      IsItem stream start stop value -> stop ≤ place -> IsItem other start stop value)
    (itemFails : ∀ before, Ready stream before -> Fails item before fun diagnostic place =>
      stream.IsStuck before.position place diagnostic fun other stop =>
        ∃ value, IsItem other before.position stop value)
    (itemReads : ∀ before id middle, Ready stream before -> item before = .ok id middle ->
      Ready stream middle ∧ before.position ≤ middle.position ∧
        stream.IsValued before.position middle.position ∧
        ∃ value, IsItem stream before.position middle.position value)
    {before : Progress}
    (ready : Ready stream before)
    (bound : Nat) :
    Fails (list bound) before (IsStuckInList stream IsItem before.position) := by
  induction bound generalizing before with
  | zero => exact lists.zero ▸ fails_endless
  | succ bound ih =>
      obtain ⟨kind, present⟩ := ready.exists_kindAt?
      by_cases isClosed : kind = .closeParen
      · exact fails_of_ok (lists.closed (isClosed ▸ present))
      refine fails_of_eq (lists.more present isClosed) (.bind ?_ fun _ middle itemRead => ?_)
      · refine (itemFails before ready).mono fun _ place isStuck => ?_
        refine isStuck.imp ?_
        rintro other stop ⟨value, derived⟩
        exact ⟨_, .last derived⟩
      obtain ⟨middleReady, ordered, valued, value, derived⟩ :=
        itemReads before _ middle ready itemRead
      refine .bind ?_ fun _ next separates => ?_
      · refine (fails_separator middleReady).mono fun _ _ complains => ?_
        refine complains.isStuck ordered valued [] rfl fun other carries _ => ?_
        exact ⟨_, .last (carried carries derived (Nat.le_refl _))⟩
      refine .bind ?_ fun _ _ _ => fails_of_ok rfl
      rcases (separator_eq_ok middleReady).mp separates with ⟨isComma, rfl⟩ | ⟨closed, rfl⟩
      · have later := ih (ready_advanced ends isComma (by decide))
        refine later.mono fun _ place isStuck => ?_
        refine Stream.IsStuck.mono isStuck (Nat.le_succ_of_le ordered)
          (valued.concat isComma (by decide)) ?_
        rintro other stop carries ⟨values, separated⟩
        exact ⟨_, .more (carried carries derived (Nat.le_of_succ_le isStuck.le))
          (carries.kindAt?_of_zero isComma isStuck.le) separated⟩
      · cases bound with
        | zero => exact lists.zero ▸ fails_endless
        | succ bound => exact fails_of_ok (lists.closed closed)

section Expressions

variable
  {stream : Stream}
  {self : Phrase -> Parser NodeId}
  {before : Progress}

/-- Where an operand is missing, an identifier can stand. -/
theorem Complains.isStuck_operand
    {diagnostic : Diagnostic}
    {place : Nat}
    (complains : Complains stream before diagnostic place) :
    stream.IsStuck before.position place diagnostic fun other stop =>
      ∃ expression, other.IsExpression .primary before.position stop expression :=
  complains.isStuck (Nat.le_refl _) (.refl stream _) [.identifier] rfl
    fun _ _ shows => ⟨_, .identifier shows.1⟩

theorem fails_primary_isStuck (ready : Ready stream before) :
    Fails (primary stream) before (IsStuckIn stream (.construct .primary) before) :=
  (fails_primary ready).mono fun _ _ complains => complains.isStuck_operand

variable
  (ends : stream.Ends)
  (steady : AllSteady stream self)
  (sound : AllSound stream self)
  (stuck : AllStuck stream self)
  (ready : Ready stream before)

include ends stuck ready in
theorem fails_unaryOperation :
    Fails (unaryOperation stream self) before
      (IsStuckIn stream (.construct .operation) before) := by
  refine fails_nextKind ready fun kind present => ?_
  cases found : UnaryOperator.ofKind? kind with
  | none =>
      refine (fails_reject_unexpected ready).mono fun _ _ complains => ?_
      refine complains.isStuck_operand.imp ?_
      rintro other stop ⟨expression, derived⟩
      exact ⟨expression, derived.loosen (by decide)⟩
  | some operator =>
      rw [UnaryOperator.ofKind?_eq_some] at found
      subst found
      have goesOn := operator.kind_ne_endOfFile
      refine fails_bind_of_ok (advance_eq present goesOn) (.bind ?_ fun _ _ _ => fails_of_ok rfl)
      have operandReady := ready_advanced ends present goesOn
      refine (stuck (.expr .unary) _ operandReady trivial).mono fun _ place isStuck => ?_
      refine isStuck.mono (Nat.le_succ _)
        (.of_kindAt? present (by cases operator <;> decide)) ?_
      rintro other stop carries ⟨expression, above⟩
      exact ⟨_, .unary (carries.kindAt?_of_zero present isStuck.le)
        (above .unary (by decide) (by decide))⟩

include ends stuck in
theorem fails_binaryOperation
    {left : NodeId}
    {power : Power}
    (asked : Asked stream (.continuation .operation left power) before) :
    Fails (binaryOperation stream self left power) before
      (IsStuckIn stream (.continuation .operation left power) before) := by
  obtain ⟨kind, present, found⟩ := asked
  obtain ⟨operator, rfl, rfl⟩ := exists_operator found
  have goesOn := operator.kind_ne_endOfFile
  have isOperator := BinaryOperator.ofKind?_eq_some.mpr (rfl : operator.kind = operator.kind)
  refine fails_bind_of_ok (nextKind_eq present)
    (fails_bind_of_ok (advance_eq present goesOn) ?_)
  rw [isOperator]
  refine .bind ?_ fun _ _ _ => fails_of_ok rfl
  have operandReady := ready_advanced ends present goesOn
  refine (stuck (.expr operator.level) _ operandReady trivial).mono fun _ place isStuck => ?_
  refine isStuck.mono (Nat.le_succ _)
    (.of_kindAt? present (by cases operator <;> decide)) ?_
  rintro other stop carries ⟨right, above⟩
  exact ⟨operator, right, rfl, carries.kindAt?_of_zero present isStuck.le, above⟩

include ends steady sound stuck ready in
theorem fails_grouping :
    Fails (grouping stream self) before (IsStuckIn stream (.construct .grouping) before) := by
  refine .bind ?_ fun _ opening opens => ?_
  · exact ((fails_expect ready (by decide)).mono fun _ _ complains =>
      complains.isStuck_operand).discard
  obtain ⟨_, opens⟩ := discard_eq_ok.mp opens
  obtain ⟨opened, -, rfl⟩ := (expect_eq_ok ready _ (by decide)).mp opens
  have innerReady := ready_advanced ends opened (by decide)
  have openedValued : stream.IsValued before.position (before.position + 1) :=
    .of_kindAt? opened (by decide)
  refine .bind ?_ fun _ middle innerRead => ?_
  · refine (stuck (.expr .lowest) _ innerReady trivial).mono fun _ place isStuck => ?_
    refine isStuck.extend (Nat.le_succ _) openedValued [.closeParen] rfl ?_
    rintro other stop carries - ⟨expression, above⟩ shows
    exact ⟨_, .group (carries.kindAt?_of_zero opened isStuck.le)
      (above .disjunction (by decide) (by decide)) shows.1⟩
  obtain ⟨inner, -, -, -, above⟩ := sound _ _ _ _ innerReady innerRead trivial
  have derived := above .disjunction (by decide) (by decide)
  have innerSteady := steady _ _ _ _ innerReady innerRead trivial
  have middleReady : Ready stream middle := innerSteady.ready
  have ordered : before.position < middle.position :=
    Nat.lt_of_succ_lt (derived.bounds ends).1
  refine .bind (Fails.discard ?_) fun _ _ _ => fails_of_ok rfl
  refine (fails_expect middleReady (by decide)).mono fun _ _ complains => ?_
  refine complains.isStuck (Nat.le_of_lt ordered) (openedValued.append innerSteady.valued)
    [.closeParen] rfl fun other carries shows => ?_
  exact ⟨_, .group (carries.kindAt?_of_zero opened ordered)
    (carries.isExpression_of_zero ends derived (Nat.le_refl _)) shows.1⟩

include ends steady sound stuck ready in
theorem fails_arguments (bound : Nat) :
    Fails (arguments stream self bound) before
      (IsStuckInList stream (fun other => other.IsExpression .disjunction)
        before.position) := by
  refine lists_arguments.fails_list ends (fun carries => carries.isExpression_of_zero ends)
    ?_ ?_ ready bound
  · intro before ready
    refine (stuck (.expr .lowest) _ ready trivial).mono fun _ place isStuck => ?_
    refine isStuck.imp ?_
    rintro other stop ⟨expression, above⟩
    exact ⟨_, above .disjunction (by decide) (by decide)⟩
  · intro before id middle ready itemRead
    obtain ⟨item, -, -, -, above⟩ := sound _ _ _ _ ready itemRead trivial
    have derived := above .disjunction (by decide) (by decide)
    have early := steady _ _ _ _ ready itemRead trivial
    exact ⟨early.ready, Nat.le_of_lt (derived.bounds ends).1, early.valued, _, derived⟩

include ends steady sound stuck ready in
theorem fails_call
    {left : NodeId}
    {power : Power}
    (asked : Asked stream (.continuation .call left power) before) :
    Fails (call stream self left) before
      (IsStuckIn stream (.continuation .call left power) before) := by
  obtain ⟨kind, present, found⟩ := asked
  obtain ⟨rfl, -⟩ := eq_openParen found
  refine fails_bind_of_ok
    ((expect_eq_ok ready .openParen (by decide)).mpr ⟨present, rfl, rfl⟩) ?_
  have openedReady := ready_advanced ends present (by decide)
  refine .bind ?_ fun _ middle argumentsRead => ?_
  · refine (fails_arguments ends steady sound stuck openedReady _).mono
      fun _ place isStuck => ?_
    refine Stream.IsStuck.extend isStuck (Nat.le_succ _) (.of_kindAt? present (by decide))
      [.closeParen] rfl ?_
    rintro other stop carries - ⟨items, separated⟩ shows
    exact ⟨stop, items, rfl, carries.kindAt?_of_zero present isStuck.le, separated, shows.1⟩
  obtain ⟨-, -, -, -, closed⟩ :=
    areSeparated_of_arguments ends sound steady openedReady argumentsRead
  exact (fails_expect_of_present closed (by decide)).discard.bind fun _ _ _ =>
    fails_of_ok rfl

include ends steady sound stuck ready in
/-- Going on with an expression gets stuck in one that is tighter than the floor. -/
theorem fails_continuations
    {floor tight : Power}
    {bound : Nat}
    {start : Nat}
    {expression : Expression TokenId}
    {left : NodeId}
    (derived : stream.IsExpression tight start before.position expression)
    (exceeds : rankAt stream before.position ≤ tight.rank)
    (early : stream.IsValued start before.position) :
    Fails (continuations .standard stream self floor bound left) before
      fun diagnostic place => stream.IsStuck start place diagnostic fun other stop =>
        ∃ expression, other.IsAbove floor start stop expression := by
  induction bound generalizing before expression tight left with
  | zero => exact fails_endless
  | succ bound ih =>
      refine fails_nextKind ready fun kind present => ?_
      rw [rankAt_eq present, Grammar.power] at exceeds
      cases found : Grammar.standard.continuation kind with
      | none => exact fails_of_ok rfl
      | some entry =>
          obtain ⟨power, continuation⟩ := entry
          simp only [found] at exceeds
          dsimp only
          split
          · exact fails_of_ok rfl
          next above =>
          rw [Nat.not_le] at above
          -- The left part is as tight as the next token, here and in every stream that
          -- carries it, so the token can take it.
          have leftBounds := derived.bounds ends
          refine .bind ?_ fun longer middle longerRead => ?_
          · have asked : Asked stream (.continuation continuation left power) before :=
              ⟨kind, present, found⟩
            refine (stuck _ _ ready asked).mono fun _ place isStuck => ?_
            refine isStuck.mono (Nat.le_of_lt leftBounds.1) early ?_
            cases continuation with
            | operation =>
                rintro other stop carries ⟨operator, right, rfl, presentLater, rightAbove⟩
                have leftLater := carries.isExpression_of_zero ends derived isStuck.le
                exact ⟨_, (leftLater.operate exceeds presentLater rightAbove).isAbove
                  (.inl above)⟩
            | call =>
                rintro other _ carries ⟨last, items, rfl, opened, separated, closed⟩
                obtain ⟨-, rfl⟩ := eq_openParen found
                have leftLater := carries.isExpression_of_zero ends derived isStuck.le
                exact ⟨_, (Stream.IsExpression.call (leftLater.loosen exceeds) opened separated
                  closed).isAbove (.inr (by decide))⟩
          · have means := sound _ _ _ _ ready longerRead trivial
            have later := steady _ _ _ _ ready longerRead trivial
            have middleReady : Ready stream middle := later.ready
            cases continuation with
            | operation =>
                obtain ⟨operator, right, next, isOperator, ⟨rightMarked, -, -, stops,
                  rightAbove⟩, -, rfl⟩ := means
                rw [present, Option.some.injEq] at isOperator
                subst isOperator
                rw [continuation_operator, Option.some.injEq, Prod.mk.injEq] at found
                obtain ⟨rfl, -⟩ := found
                exact ih middleReady
                  (derived.operate exceeds present rightAbove) stops (early.append later.valued)
            | call =>
                obtain ⟨arguments, next, stop, opened, -, separated, closed, -, rfl⟩ := means
                obtain ⟨-, rfl⟩ := eq_openParen found
                exact ih middleReady
                  (.call (derived.loosen exceeds) opened separated closed)
                  (rankAt_le middleReady) (early.append later.valued)

include ends steady sound stuck ready in
theorem fails_expr {floor : Power} :
    Fails (expr .standard stream self floor) before (IsStuckIn stream (.expr floor) before) := by
  refine fails_nextKind ready fun kind present => ?_
  cases found : Grammar.standard.operand kind with
  | none =>
      refine (fails_reject_unexpected ready).mono fun _ _ complains => ?_
      refine complains.isStuck_operand.imp ?_
      rintro other stop ⟨expression, derived⟩
      exact ⟨expression, derived.isAbove (.inr (by decide))⟩
  | some construct =>
      have suits : Suits stream (.construct construct) before := suits_of_operand found before
      refine .bind ?_ fun left middle leftRead => ?_
      · refine (stuck (.construct construct) _ ready suits).mono fun _ place isStuck => ?_
        refine isStuck.imp ?_
        intro other stop finished
        rcases operand_cases found with rfl | rfl | rfl
        all_goals
          obtain ⟨expression, derived⟩ := finished
          exact ⟨expression, derived.isAbove (.inr (by decide))⟩
      · have means := sound _ _ _ _ ready leftRead suits
        have early := steady _ _ _ _ ready leftRead suits
        have middleReady : Ready stream middle := early.ready
        have primaryCase : ReadsLevel stream .primary before left middle ->
            Fails (continuations .standard stream self floor (listBound stream) left) middle
              (IsStuckIn stream (.expr floor) before) := by
          rintro ⟨expression, -, -, derived⟩
          exact fails_continuations ends steady sound stuck middleReady derived
            (Nat.le_succ_of_le (rankAt_le middleReady)) early.valued
        rcases operand_cases found with rfl | rfl | rfl
        · exact primaryCase means
        · exact primaryCase means
        · obtain ⟨⟨expression, -, -, derived⟩, stops⟩ := means
          exact fails_continuations ends steady sound stuck middleReady derived stops
            early.valued

include stuck ready in
theorem fails_expression :
    Fails (expression stream self) before
      (IsStuckIn stream (.construct .expression) before) := by
  refine fails_bind_of_ok (nextId_eq ready) (.bind ?_ fun _ _ _ => fails_of_ok rfl)
  refine (stuck (.expr .lowest) _ ready trivial).mono fun _ place isStuck => ?_
  refine isStuck.imp ?_
  rintro other stop ⟨inner, above⟩
  exact ⟨⟨before.position, inner⟩, rfl, above .disjunction (by decide) (by decide)⟩

end Expressions

section Statements

variable
  {stream : Stream}
  {self : Phrase -> Parser NodeId}
  {before : Progress}

theorem isWhole_of_identifier
    {place : Nat}
    (present : stream.kindAt? place = some .identifier) :
    stream.IsWhole place (place + 1) ⟨place, .identifier place⟩ :=
  ⟨rfl, (Stream.IsExpression.identifier present).loosen (by decide)⟩

variable
  (ends : stream.Ends)
  (steady : AllSteady stream self)
  (sound : AllSound stream self)
  (stuck : AllStuck stream self)
  (ready : Ready stream before)

include ends steady sound stuck ready in
/-- A statement that ends with a whole expression is finished by a semicolon. -/
theorem fails_value
    {start : Nat}
    {Finished : Stream -> Nat -> Prop}
    (le : start ≤ before.position)
    (early : stream.IsValued start before.position)
    (finish : ∀ other place valueStop stop value, stream.Carries other 0 place ->
      before.position ≤ place -> other.IsWhole before.position valueStop value ->
        other.IsTerminator valueStop stop -> Finished other stop)
    (node : NodeId -> Node) :
    Fails (do
        let value <- self (.construct .expression)
        terminator stream
        addNode (node value)) before
      fun diagnostic place => stream.IsStuck start place diagnostic Finished := by
  refine .bind ?_ fun _ middle valueRead => .bind ?_ fun _ _ _ => fails_of_ok rfl
  · refine (stuck (.construct .expression) _ ready trivial).mono fun _ place isStuck => ?_
    refine isStuck.extend le early [.semicolon] rfl ?_
    rintro other stop carries - ⟨value, derived⟩ shows
    exact finish other place stop _ value carries isStuck.le derived (.semicolon shows.1)
  · obtain ⟨value, -, -, derived⟩ := sound _ _ _ _ ready valueRead trivial
    have later := steady _ _ _ _ ready valueRead trivial
    have middleReady : Ready stream middle := later.ready
    have ordered := Nat.le_of_lt (derived.2.bounds ends).1
    refine (fails_terminator middleReady).mono fun _ _ complains => ?_
    refine complains.isStuck (Nat.le_trans le ordered) (early.append later.valued) [.semicolon] rfl
      fun other carries shows => ?_
    exact finish other _ _ _ _ carries ordered
      (carries.isWhole_of_zero ends derived (Nat.le_refl _)) (.semicolon shows.1)

include ends steady sound stuck in
theorem fails_binding
    {isConstant : Bool}
    (present : stream.kindAt? before.position = some (Stream.bindingKind isConstant)) :
    Fails (binding stream self) before (IsStuckIn stream (.construct .binding) before) := by
  have goesOn : Stream.bindingKind isConstant ≠ .endOfFile := by cases isConstant <;> decide
  have presentValued : stream.IsValued before.position (before.position + 1) :=
    .of_kindAt? present (by cases isConstant <;> decide)
  refine fails_bind_of_ok (nextKind_eq present)
    (fails_bind_of_ok (advance_eq present goesOn) ?_)
  have nameReady := ready_advanced ends present goesOn
  refine .bind ?_ fun _ _ nameRead => ?_
  · refine (fails_identifier nameReady).mono fun _ _ complains => ?_
    refine complains.isStuck (Nat.le_succ _) presentValued
      [.identifier, .assignment, .identifier, .semicolon] rfl fun other carries shows => ?_
    obtain ⟨named, assigned, isValue, terminates, -⟩ := shows
    exact ⟨_, .binding (carries.kindAt?_of_zero present (Nat.lt_succ_self _)) named assigned
      (isWhole_of_identifier isValue) (.semicolon terminates)⟩
  obtain ⟨isName, -, rfl⟩ := of_identifier_eq_ok nameReady nameRead
  have namedReady : Ready stream (withName before) := ready_advanced ends isName (by decide)
  have namedValued := presentValued.concat isName (by decide)
  refine (fails_misplaced namedReady).bind fun diagnostic _ described => ?_
  obtain ⟨rfl, blames⟩ := blames_of_misplaced namedReady described
  refine .bind (Fails.discard ?_) fun _ _ assigns => ?_
  · refine (fails_expectOr namedReady blames (by decide)).mono fun _ _ complains => ?_
    refine complains.isStuck (Nat.le_add_right _ 2) namedValued
      [.assignment, .identifier, .semicolon] rfl fun other carries shows => ?_
    obtain ⟨assigned, isValue, terminates, -⟩ := shows
    exact ⟨_, .binding (carries.kindAt?_of_zero present (Nat.lt_add_of_pos_right Nat.two_pos))
      (carries.kindAt?_of_zero isName (Nat.lt_succ_self _)) assigned
      (isWhole_of_identifier isValue) (.semicolon terminates)⟩
  obtain ⟨_, assigns⟩ := discard_eq_ok.mp assigns
  obtain ⟨isAssignment, -, rfl⟩ := (expectOr_eq_ok namedReady (by decide)).mp assigns
  have assignedReady : Ready stream (advanced (withName before)) :=
    ready_advanced ends isAssignment (by decide)
  refine fails_value ends steady sound stuck assignedReady (Nat.le_add_right _ 3)
    (namedValued.concat isAssignment (by decide)) ?_ _
  intro other place valueStop stop value carries after derived terminates
  change before.position + 3 ≤ place at after
  exact ⟨_, .binding (carries.kindAt?_of_zero present (by omega))
    (carries.kindAt?_of_zero isName (show before.position + 1 < place by omega))
    (carries.kindAt?_of_zero isAssignment after) derived terminates⟩

include ends steady sound stuck ready in
theorem fails_statement :
    Fails (statement .standard stream self) before
      (IsStuckIn stream (.construct .statement) before) := by
  refine fails_nextKind ready fun kind present => ?_
  cases found : Grammar.standard.statement kind with
  | some construct =>
      have suits : Suits stream (.construct construct) before := suits_of_statement present found
      refine (stuck (.construct construct) _ ready suits).mono fun _ place isStuck => ?_
      refine isStuck.imp ?_
      intro other stop finished
      cases kind <;> cases found
      case openCurly.refl =>
        obtain ⟨token, statements, derived⟩ := finished
        exact ⟨_, derived⟩
      all_goals exact finished
  | none =>
      refine fails_bind_of_ok (nextId_eq ready) (.bind ?_ fun _ middle targetRead => ?_)
      · refine (stuck (.construct .expression) _ ready trivial).mono fun _ place isStuck => ?_
        refine isStuck.extend (Nat.le_refl _) (.refl stream _) [.semicolon] rfl ?_
        rintro other stop - - ⟨target, derived⟩ shows
        exact ⟨_, .evaluate derived (.semicolon shows.1)⟩
      obtain ⟨target, -, -, derived⟩ := sound _ _ _ _ ready targetRead trivial
      have early := steady _ _ _ _ ready targetRead trivial
      have middleReady : Ready stream middle := early.ready
      have ordered := Nat.le_of_lt (derived.2.bounds ends).1
      refine fails_nextKind middleReady fun next nextPresent => ?_
      split
      next isAssignment =>
        subst isAssignment
        refine fails_bind_of_ok (advance_eq nextPresent (by decide)) ?_
        refine fails_value ends steady sound stuck
          (ready_advanced ends nextPresent (by decide)) (Nat.le_succ_of_le ordered)
          (early.valued.concat nextPresent (by decide)) ?_ _
        intro other place valueStop stop value carries after valueDerived terminates
        exact ⟨_, .assign (carries.isWhole_of_zero ends derived (Nat.le_of_succ_le after))
          (carries.kindAt?_of_zero nextPresent after) valueDerived terminates⟩
      next =>
        refine .bind ?_ fun _ _ _ => fails_of_ok rfl
        refine (fails_terminator middleReady).mono fun _ _ complains => ?_
        refine complains.isStuck ordered early.valued [.semicolon] rfl fun other carries shows => ?_
        exact ⟨_, .evaluate (carries.isWhole_of_zero ends derived (Nat.le_refl _))
          (.semicolon shows.1)⟩

include ends steady sound stuck in
theorem fails_returnStatement
    (present : stream.kindAt? before.position = some .returnWord) :
    Fails (returnStatement stream self) before
      (IsStuckIn stream (.construct .return) before) := by
  have ready := ready_of_kindAt? present
  have inside : inFunction before = .ok (decide (0 < before.depth)) before := rfl
  refine fails_bind_of_ok inside ?_
  split
  · refine (fails_misplaced ready).bind fun diagnostic _ described => ?_
    obtain ⟨rfl, blames⟩ := blames_of_misplaced ready described
    refine ((fails_reject blames).mono fun _ _ complains => ?_).bind fun _ _ impossible =>
      (reject_eq_ok.mp impossible).elim
    -- Outside of functions another statement may stand there instead.
    refine complains.isStuck (Nat.le_refl _) (.refl stream _) [.identifier, .semicolon] rfl
      fun other _ shows => ?_
    exact ⟨_, .evaluate (isWhole_of_identifier shows.1) (.semicolon shows.2.1)⟩
  next isInside =>
    have isDeep : decide (0 < before.depth) = true :=
      decide_eq_true (Nat.pos_of_ne_zero (by simpa using isInside))
    have finishes : ∀ other stop statement,
        other.IsStatement true before.position stop statement ->
          Finishes (.construct .return) before other stop :=
      fun _ _ statement derived => ⟨statement, by rw [isDeep]; exact derived⟩
    have presentValued : stream.IsValued before.position (before.position + 1) :=
      .of_kindAt? present (by decide)
    have wordReady := ready_advanced ends present (by decide)
    have withoutValue : ∀ node, Fails (do terminator stream; addNode node) (advanced before)
        (IsStuckIn stream (.construct .return) before) := by
      intro node
      refine .bind ?_ fun _ _ _ => fails_of_ok rfl
      refine (fails_terminator wordReady).mono fun _ _ complains => ?_
      refine complains.isStuck (Nat.le_succ _) presentValued [.semicolon] rfl
        fun other carries shows => finishes other _ (.return before.position none) ?_
      exact .return (carries.kindAt?_of_zero present (Nat.lt_succ_self _)) (.semicolon shows.1)
    obtain ⟨next, nextPresent⟩ := wordReady.exists_kindAt?
    refine fails_bind_of_ok (advance_eq present (by decide))
      (fails_bind_of_ok (nextKind_eq nextPresent) ?_)
    dsimp only
    split
    · exact fails_bind_of_ok rfl (withoutValue _)
    · exact fails_bind_of_ok rfl (withoutValue _)
    · exact fails_bind_of_ok rfl (withoutValue _)
    · refine fails_value ends steady sound stuck wordReady (Nat.le_succ _)
        presentValued ?_ _
      intro other place valueStop stop value carries after derived terminates
      exact finishes _ _ _ (.returnValue (carries.kindAt?_of_zero present after) derived
        terminates)

/-! ### Lists of statements -/

/-- Reading is stuck among statements that can be finished by what closes their list. If it
is stuck before the first of them, the list ends there. -/
def IsStuckAmong
    (stream : Stream)
    (inFunction : Bool)
    (start : Nat)
    (diagnostic : Diagnostic)
    (place : Nat) : Prop :=
  stream.IsStuck start place diagnostic fun other stop => other.IsClosed stop ->
    (place = start -> stop = place) ∧
      ∃ statements, other.AreStatements inFunction start stop statements

section Among

variable
  {inFunction : Bool}
  {start middle place : Nat}
  {diagnostic : Diagnostic}

omit ends in
theorem Complains.isStuckAmong
    (complains : Complains stream before diagnostic place) :
    IsStuckAmong stream inFunction before.position diagnostic place := by
  refine complains.isStuck (Nat.le_refl _) (.refl stream _) [] rfl ?_
  rintro other - - -
  exact ⟨fun _ => complains.1.symm, [], .none⟩

omit ends in
/-- A statement that cannot start is left out, and one that has started is finished. -/
theorem isStuckAmong_of_statement
    (isStuck : stream.IsStuck start place diagnostic fun other stop =>
      ∃ statement, other.IsStatement inFunction start stop statement) :
    IsStuckAmong stream inFunction start diagnostic place := by
  rcases Nat.eq_or_lt_of_le isStuck.le with rfl | started
  · refine ⟨isStuck.blames, Nat.le_refl _, .refl stream _, [], rfl, ?_⟩
    rintro other - - -
    exact ⟨fun _ => rfl, [], .none⟩
  · refine isStuck.imp ?_
    rintro other stop ⟨statement, derived⟩ -
    exact ⟨fun same => absurd same (Nat.ne_of_gt started), [statement], .more derived .none⟩

omit ends in
theorem IsStuckAmong.skip
    (isStuck : IsStuckAmong stream inFunction (start + 1) diagnostic place)
    (present : stream.kindAt? start = some .semicolon) :
    IsStuckAmong stream inFunction start diagnostic place := by
  refine Stream.IsStuck.mono isStuck (Nat.le_succ _) (.of_kindAt? present (by decide)) ?_
  rintro other stop carries finish closed
  obtain ⟨-, statements, derived⟩ := finish closed
  exact ⟨fun same => absurd same (Nat.ne_of_gt isStuck.le), statements,
    .skip (carries.kindAt?_of_zero present isStuck.le) derived⟩

include ends in
/-- A statement may have been ended only by the token at which reading got stuck. Then its
list is closed there. -/
theorem IsStuckAmong.more
    {statement : Statement TokenId}
    (isStuck : IsStuckAmong stream inFunction middle diagnostic place)
    (derived : stream.IsStatement inFunction start middle statement)
    (early : stream.IsValued start middle) :
    IsStuckAmong stream inFunction start diagnostic place := by
  have alone : stream.AreStatements inFunction start middle [statement] := .more derived .none
  have ordered := alone.reads.le
  refine Stream.IsStuck.mono isStuck ordered early ?_
  rintro other stop carries finish closed
  obtain ⟨ended, statements, rest⟩ := finish closed
  rcases Nat.eq_or_lt_of_le isStuck.le with rfl | later
  · obtain rfl := ended rfl
    have first := (carries.embeds_of_closed closed).areStatements_of_zero ends alone
      (Nat.le_refl _)
    exact ⟨fun _ => rfl, _, first.append rest⟩
  · have first := (carries.embeds_of_lt later).areStatements_of_zero ends alone
      (Nat.le_refl _)
    exact ⟨fun same => absurd same (Nat.ne_of_gt (Nat.lt_of_le_of_lt ordered later)), _,
      first.append rest⟩

end Among

include ends steady sound stuck ready in
theorem ListsStatements.fails_list
    {closing : Token.Kind}
    {list : Nat -> Parser (List NodeId)}
    (lists : ListsStatements stream closing self list)
    (bound : Nat) :
    Fails (list bound) before
      (IsStuckAmong stream (decide (0 < before.depth)) before.position) := by
  induction bound generalizing before with
  | zero => exact lists.zero ▸ fails_endless
  | succ bound ih =>
      obtain ⟨kind, present⟩ := ready.exists_kindAt?
      by_cases isClosing : kind = closing
      · exact fails_of_ok (lists.closed (isClosing ▸ present))
      by_cases isEnd : kind = .endOfFile
      · subst isEnd
        refine fails_of_eq (lists.unclosed present (Ne.symm isClosing)) ?_
        exact (fails_reject_misplaced ready).mono fun _ _ complains => complains.isStuckAmong
      by_cases isSemicolon : kind = .semicolon
      · subst isSemicolon
        intro diagnostic after failed
        rw [lists.skip present] at failed
        have later := ih (ready_advanced ends present (by decide))
        exact (later diagnostic after failed).skip present
      refine fails_of_eq (lists.more present isClosing isEnd isSemicolon)
        (.bind ?_ fun _ middle statementRead => .bind ?_ fun _ _ _ => fails_of_ok rfl)
      · exact (stuck (.construct .statement) _ ready trivial).mono fun _ _ isStuck =>
          isStuckAmong_of_statement isStuck
      · obtain ⟨statement, built, -, derived⟩ := sound _ _ _ _ ready statementRead trivial
        have early := steady _ _ _ _ ready statementRead trivial
        have later := ih early.ready
        rw [built.grown.depth] at later
        exact later.mono fun _ _ isStuck => isStuck.more ends derived early.valued

include ends steady sound stuck ready in
theorem fails_block :
    Fails (block stream self) before (IsStuckIn stream (.construct .block) before) := by
  refine .bind ?_ fun _ _ opens => ?_
  · refine (fails_expect ready (by decide)).mono fun _ _ complains => ?_
    refine complains.isStuck (Nat.le_refl _) (.refl stream _) [.openCurly, .closeCurly] rfl
      fun other carries shows => ?_
    exact ⟨_, _, .block shows.1 .none shows.2.1⟩
  obtain ⟨opened, -, rfl⟩ := (expect_eq_ok ready _ (by decide)).mp opens
  have openedReady := ready_advanced ends opened (by decide)
  refine .bind ?_ fun _ middle statementsRead => ?_
  · refine (lists_blockStatements.fails_list ends steady sound stuck openedReady _).mono
      fun _ place isStuck => ?_
    refine Stream.IsStuck.extend isStuck (Nat.le_succ _) (.of_kindAt? opened (by decide))
      [.closeCurly] rfl ?_
    rintro other stop carries - finish shows
    obtain ⟨-, statements, derived⟩ := finish (.inl shows.1)
    exact ⟨_, statements, .block (carries.kindAt?_of_zero opened isStuck.le) derived shows.1⟩
  obtain ⟨-, -, -, -, closed⟩ :=
    lists_blockStatements.areStatements ends sound steady openedReady statementsRead
  exact (fails_expect_of_present closed (by decide)).discard.bind fun _ _ _ =>
    fails_of_ok rfl

/-! ### Functions -/

include ends ready in
theorem fails_parameters (bound : Nat) :
    Fails (parameters stream bound) before
      (IsStuckInList stream Stream.IsName before.position) := by
  refine lists_parameters.fails_list ends (fun carries => carries.isName_of_zero) ?_ ?_ ready
    bound
  · intro before ready
    refine (fails_identifier ready).mono fun _ _ complains => ?_
    exact complains.isStuck (Nat.le_refl _) (.refl stream _) [.identifier] rfl
      fun _ _ shows => ⟨_, rfl, rfl, shows.1⟩
  · intro before id middle ready nameRead
    obtain ⟨isName, -, rfl⟩ := of_identifier_eq_ok ready nameRead
    exact ⟨ready_advanced ends isName (by decide), Nat.le_succ _,
      .of_kindAt? isName (by decide), _, rfl, rfl, isName⟩

/-- The place of a failure is kept when the body of a function is left. -/
theorem Fails.withinFunction
    {α : Type}
    {body : Parser α}
    {Failed : Diagnostic -> Nat -> Prop}
    (fails : Fails body (entered before) Failed) :
    Fails (Parser.withinFunction body) before Failed := by
  intro diagnostic after failed
  rw [withinFunction_eq] at failed
  cases read : body (entered before) with
  | ok value middle => cases found : middle.depth <;> simp [read, found] at failed
  | error stop middle =>
      cases found : middle.depth with
      | zero => simp [read, found] at failed
      | succ depth =>
          simp only [read, found] at failed
          cases failed
          exact fails diagnostic middle read

include ends stuck in
theorem fails_function (present : stream.kindAt? before.position = some .fnWord) :
    Fails (function stream self) before (IsStuckIn stream (.construct .function) before) := by
  have presentValued : stream.IsValued before.position (before.position + 1) :=
    .of_kindAt? present (by decide)
  refine fails_bind_of_ok (advance_eq present (by decide)) ?_
  have nameReady := ready_advanced ends present (by decide)
  refine .bind ?_ fun _ _ nameRead => ?_
  · refine (fails_identifier nameReady).mono fun _ _ complains => ?_
    refine complains.isStuck (Nat.le_succ _) presentValued
      [.identifier, .openParen, .closeParen, .openCurly, .closeCurly] rfl
      fun other carries shows => ?_
    obtain ⟨named, opened, closed, bodyOpened, bodyClosed, -⟩ := shows
    exact ⟨_, .function (carries.kindAt?_of_zero present (Nat.lt_succ_self _)) named opened
      .none closed bodyOpened .none bodyClosed⟩
  obtain ⟨isName, -, rfl⟩ := of_identifier_eq_ok nameReady nameRead
  have namedReady : Ready stream (withName before) := ready_advanced ends isName (by decide)
  have namedValued := presentValued.concat isName (by decide)
  refine .bind (Fails.discard ?_) fun _ _ opens => ?_
  · refine (fails_expect namedReady (by decide)).mono fun _ _ complains => ?_
    refine complains.isStuck (Nat.le_add_right _ 2) namedValued
      [.openParen, .closeParen, .openCurly, .closeCurly] rfl fun other carries shows => ?_
    obtain ⟨opened, closed, bodyOpened, bodyClosed, -⟩ := shows
    exact ⟨_, .function (carries.kindAt?_of_zero present (Nat.lt_add_of_pos_right Nat.two_pos))
      (carries.kindAt?_of_zero isName (Nat.lt_succ_self _)) opened .none closed bodyOpened
      .none bodyClosed⟩
  obtain ⟨_, opens⟩ := discard_eq_ok.mp opens
  obtain ⟨opened, -, rfl⟩ := (expect_eq_ok namedReady _ (by decide)).mp opens
  have openedReady : Ready stream (withFunctionName before) :=
    ready_advanced ends opened (by decide)
  have openedValued := namedValued.concat opened (by decide)
  refine .bind ?_ fun _ middle parametersRead => ?_
  · refine (fails_parameters ends openedReady _).mono fun _ place isStuck => ?_
    refine Stream.IsStuck.extend isStuck (Nat.le_add_right _ 3) openedValued
      [.closeParen, .openCurly, .closeCurly] rfl ?_
    rintro other stop carries - ⟨names, separated⟩ shows
    obtain ⟨closed, bodyOpened, bodyClosed, -⟩ := shows
    have after : before.position + 3 ≤ place := isStuck.le
    exact ⟨_, .function (carries.kindAt?_of_zero present (by omega))
      (carries.kindAt?_of_zero isName (Nat.lt_of_succ_lt after))
      (carries.kindAt?_of_zero opened after) separated closed bodyOpened .none bodyClosed⟩
  obtain ⟨names, -, -, separated, closed⟩ :=
    areSeparated_of_parameters ends openedReady parametersRead
  have namesValued := steady_parameters ends _ _ _ _ openedReady parametersRead
  have ordered := separated.le Stream.IsName.le
  have closedReady : Ready stream (entered (advanced middle)) :=
    ready_advanced ends closed (by decide)
  refine .bind (fails_expect_of_present closed (by decide)).discard fun _ _ closes => ?_
  obtain ⟨_, closes⟩ := discard_eq_ok.mp closes
  obtain ⟨-, -, rfl⟩ := (expect_eq_ok (ready_of_kindAt? closed) _ (by decide)).mp closes
  -- The block is read inside of one more function, and its depth shows in what is finished.
  refine .bind (Fails.withinFunction ?_) fun _ _ _ => fails_of_ok rfl
  refine (stuck (.construct .block) _ closedReady trivial).mono fun _ place isStuck => ?_
  have after : middle.position + 1 ≤ place := isStuck.le
  change before.position + 3 ≤ middle.position at ordered
  refine isStuck.mono (show before.position ≤ middle.position + 1 by omega)
    ((openedValued.append namesValued.valued).concat closed (by decide)) ?_
  rintro other stop carries ⟨token, statements, derived⟩
  obtain ⟨-, last, rfl, bodyOpened, bodyDerived, bodyClosed⟩ := derived.of_block
  exact ⟨_, .function (carries.kindAt?_of_zero present (by omega))
    (carries.kindAt?_of_zero isName (show before.position + 1 < place by omega))
    (carries.kindAt?_of_zero opened (show before.position + 2 < place by omega))
    (carries.areNames_of_zero separated (Nat.le_of_succ_le after))
    (carries.kindAt?_of_zero closed after) bodyOpened bodyDerived bodyClosed⟩

/-! ## All phrases -/

include ends steady sound stuck in
/-- One more level of calls gets stuck only in phrases that can be finished. -/
theorem allStuck_phraseStep : AllStuck stream (phraseStep .standard stream self) := by
  intro request before ready asked
  match request with
  | .construct .primary => exact fails_primary_isStuck ready
  | .construct .operation => exact fails_unaryOperation ends stuck ready
  | .construct .grouping => exact fails_grouping ends steady sound stuck ready
  | .construct .expression => exact fails_expression stuck ready
  | .construct .statement => exact fails_statement ends steady sound stuck ready
  | .construct .binding =>
      obtain ⟨isConstant, present⟩ := asked
      exact fails_binding ends steady sound stuck present
  | .construct .block => exact fails_block ends steady sound stuck ready
  | .construct .function => exact fails_function ends stuck asked
  | .construct .return => exact fails_returnStatement ends steady sound stuck asked
  | .expr floor => exact fails_expr ends steady sound stuck ready
  | .continuation .operation left power => exact fails_binaryOperation ends stuck asked
  | .continuation .call left power =>
      exact fails_call ends steady sound stuck ready asked

include ends in
theorem allStuck_phraseWithin (depth : Nat) :
    AllStuck stream (phraseWithin .standard stream depth) := by
  induction depth with
  | zero => exact fun _ _ _ _ => fails_endless
  | succ depth ih =>
      exact allStuck_phraseStep ends (allSteady_phraseWithin ends depth)
        (allSound_phraseWithin ends depth)
        ih

/-! ## Programs -/

theorem fails_setNode
    {id : NodeId}
    {node : Node}
    {Failed : Diagnostic -> Nat -> Prop} :
    Fails (setNode id node) before Failed := by
  intro diagnostic after failed
  rw [setNode_eq] at failed
  split at failed <;> cases failed

include ends in
/-- Where a program cannot be read, its statements can be finished. -/
theorem fails_program :
    Fails (program .standard stream) {} (IsStuckAmong stream false 0) := by
  have ready : Ready stream rooted := ends.nonempty
  have statementsFail := lists_programStatements.fails_list ends (allSteady_phraseWithin ends _)
    (allSound_phraseWithin ends _) (allStuck_phraseWithin ends _) ready (listBound stream)
  refine fails_bind_of_ok (nextId_eq ends.nonempty) (fails_bind_of_ok (addNode_eq _) ?_)
  refine statementsFail.bind fun _ _ _ => ?_
  exact fails_bind_of_ok (addRun_eq _) fails_setNode

end Statements

end Parser

end Frontend
