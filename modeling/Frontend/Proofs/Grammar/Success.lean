import Frontend.Proofs.Grammar.Reading
import Frontend.Proofs.Syntax.Holding

/-!
# When phrases are read

For each parser of a phrase, the exact condition under which it succeeds, with its
result and the progress it makes, relative to the parsers that it calls for the
phrases in it.
-/

namespace Frontend

theorem UnaryOperator.ofKind?_eq_some {kind : Token.Kind} {operator : UnaryOperator} :
    ofKind? kind = some operator ↔ kind = operator.kind := by
  constructor
  · intro found
    cases kind <;> simp only [ofKind?, Option.some.injEq, reduceCtorEq] at found <;>
      subst found <;> rfl
  · rintro rfl
    cases operator <;> rfl

theorem BinaryOperator.ofKind?_eq_some {kind : Token.Kind} {operator : BinaryOperator} :
    ofKind? kind = some operator ↔ kind = operator.kind := by
  constructor
  · intro found
    cases kind <;> simp only [ofKind?, Option.some.injEq, reduceCtorEq] at found <;>
      subst found <;> rfl
  · rintro rfl
    cases operator <;> rfl

theorem UnaryOperator.kind_ne_endOfFile (operator : UnaryOperator) :
    operator.kind ≠ .endOfFile := by
  cases operator <;> decide

theorem BinaryOperator.kind_ne_endOfFile (operator : BinaryOperator) :
    operator.kind ≠ .endOfFile := by
  cases operator <;> decide

namespace Parser

/-- A parser that succeeds is at a token of the stream again, and the numbers that it
passed have values. -/
def Steady {α : Type} (stream : Stream) (parser : Parser α) : Prop :=
  ∀ before value after, Ready stream before -> parser before = .ok value after ->
    stream.Proceeds before.position after.position

/-- Some phrases are only asked for at the word that starts them. -/
def Suits (stream : Stream) : Phrase -> Progress -> Prop
  | .construct .binding, progress =>
      ∃ isConstant, stream.kindAt? progress.position =
        some (Stream.bindingKind isConstant)
  | .construct .function, progress =>
      stream.kindAt? progress.position = some .fnWord
  | .construct .return, progress =>
      stream.kindAt? progress.position = some .returnWord
  | _, _ => True

/-- The table of statements sends each phrase to the word that starts it. -/
theorem suits_of_statement
    {stream : Stream}
    {progress : Progress}
    {kind : Token.Kind}
    (present : stream.kindAt? progress.position = some kind)
    {construct : Construct}
    (found : Grammar.standard.statement kind = some construct) :
    Suits stream (.construct construct) progress := by
  cases kind <;> cases found
  case constWord => exact ⟨true, present⟩
  case varWord => exact ⟨false, present⟩
  case fnWord => exact present
  case returnWord => exact present
  case openCurly => exact trivial

theorem suits_of_operand
    {stream : Stream}
    {kind : Token.Kind}
    {construct : Construct}
    (found : Grammar.standard.operand kind = some construct)
    (progress : Progress) :
    Suits stream (.construct construct) progress := by
  cases kind <;> cases found <;> exact trivial

/-- Parsers of phrases are at a token of the stream again when they succeed, and the
numbers that they passed have values. -/
def AllSteady (stream : Stream) (self : Phrase -> Parser NodeId) : Prop :=
  ∀ request before id after, Ready stream before -> self request before = .ok id after ->
    Suits stream request before -> stream.Proceeds before.position after.position

section Phrases

variable
  {stream : Stream}
  {self : Phrase -> Parser NodeId}
  {before after : Progress}
  {id : NodeId}

theorem unaryOperation_eq_ok (ready : Ready stream before) :
    unaryOperation stream self before = .ok id after ↔
      ∃ operator operand middle,
        stream.kindAt? before.position = some operator.kind ∧
          self (.expr .unary) (advanced before) = .ok operand middle ∧
          id = middle.nodes.size ∧
          after = withNode middle ⟨.unary operator, before.position, operand, 0⟩ := by
  obtain ⟨kind, present⟩ := ready.exists_kindAt?
  simp only [unaryOperation, bind_eq_ok, nextKind_eq present, EStateM.Result.ok.injEq]
  constructor
  · rintro ⟨_, _, ⟨rfl, rfl⟩, read⟩
    cases found : UnaryOperator.ofKind? kind with
    | none => simp [found, bind_eq_ok, reject_eq_ok] at read
    | some operator =>
        rw [UnaryOperator.ofKind?_eq_some] at found
        subst found
        rw [UnaryOperator.ofKind?_eq_some.mpr rfl] at read
        simp only [bind_eq_ok, advance_eq present operator.kind_ne_endOfFile,
          EStateM.Result.ok.injEq] at read
        obtain ⟨_, _, ⟨rfl, rfl⟩, operand, middle, operandRead, made⟩ := read
        cases made
        exact ⟨operator, operand, middle, present, operandRead, rfl, rfl⟩
  · rintro ⟨operator, operand, middle, isOperator, operandRead, rfl, rfl⟩
    rw [isOperator, Option.some.injEq] at present
    subst present
    refine ⟨_, _, ⟨rfl, rfl⟩, ?_⟩
    rw [UnaryOperator.ofKind?_eq_some.mpr rfl]
    simp only [bind_eq_ok]
    exact ⟨_, _, advance_eq isOperator operator.kind_ne_endOfFile, operand, middle,
      operandRead, rfl⟩

theorem binaryOperation_eq_ok
    (ready : Ready stream before)
    {left : NodeId}
    {power : Power} :
    binaryOperation stream self left power before = .ok id after ↔
      ∃ operator right middle,
        stream.kindAt? before.position = some operator.kind ∧
          self (.expr power) (advanced before) = .ok right middle ∧
          id = middle.nodes.size ∧
          after = withNode middle ⟨.binary operator, before.position, left, right⟩ := by
  obtain ⟨kind, present⟩ := ready.exists_kindAt?
  simp only [binaryOperation, bind_eq_ok, nextKind_eq present, EStateM.Result.ok.injEq]
  constructor
  · rintro ⟨_, _, ⟨rfl, rfl⟩, token, next, advances, read⟩
    cases found : BinaryOperator.ofKind? kind with
    | none => simp [found, bind_eq_ok, reject_eq_ok] at read
    | some operator =>
        rw [BinaryOperator.ofKind?_eq_some] at found
        subst found
        rw [advance_eq present operator.kind_ne_endOfFile] at advances
        cases advances
        rw [BinaryOperator.ofKind?_eq_some.mpr rfl] at read
        simp only [bind_eq_ok] at read
        obtain ⟨right, middle, rightRead, made⟩ := read
        cases made
        exact ⟨operator, right, middle, present, rightRead, rfl, rfl⟩
  · rintro ⟨operator, right, middle, isOperator, rightRead, rfl, rfl⟩
    rw [isOperator, Option.some.injEq] at present
    subst present
    refine ⟨_, _, ⟨rfl, rfl⟩, _, _, advance_eq isOperator operator.kind_ne_endOfFile, ?_⟩
    rw [BinaryOperator.ofKind?_eq_some.mpr rfl]
    simp only [bind_eq_ok]
    exact ⟨right, middle, rightRead, rfl⟩

theorem grouping_eq_ok
    (ends : stream.Ends)
    (steady : AllSteady stream self)
    (ready : Ready stream before) :
    grouping stream self before = .ok id after ↔
      stream.kindAt? before.position = some .openParen ∧
        ∃ middle,
          self (.expr .lowest) (advanced before) = .ok id middle ∧
            stream.kindAt? middle.position = some .closeParen ∧
            after = advanced middle := by
  simp only [grouping, bind_eq_ok, discard_eq_ok, expect_eq_ok ready .openParen (by decide),
    pure_eq_ok]
  constructor
  · rintro ⟨_, _, ⟨_, opened, rfl, rfl⟩, inner, middle, read, _, _, ⟨_, closes⟩, rfl, rfl⟩
    have middleReady := (steady _ _ _ _ (ready_advanced ends opened (by decide)) read trivial).ready
    obtain ⟨closed, -, rfl⟩ := (expect_eq_ok middleReady _ (by decide)).mp closes
    exact ⟨opened, middle, read, closed, rfl⟩
  · rintro ⟨opened, middle, read, closed, rfl⟩
    refine ⟨⟨⟩, _, ⟨_, opened, rfl, rfl⟩, id, middle, read, ⟨⟩, _,
      ⟨middle.position, ?_⟩, rfl, rfl⟩
    exact (expect_eq_ok (ready_of_kindAt? closed) _ (by decide)).mpr ⟨closed, rfl, rfl⟩

theorem expression_eq_ok (ready : Ready stream before) :
    expression stream self before = .ok id after ↔
      ∃ inner middle,
        self (.expr .lowest) before = .ok inner middle ∧
          id = middle.nodes.size ∧
          after = withNode middle ⟨.expression, before.position, inner, 0⟩ := by
  simp only [expression, bind_eq_ok, nextId_eq ready, EStateM.Result.ok.injEq]
  constructor
  · rintro ⟨_, _, ⟨rfl, rfl⟩, inner, middle, read, made⟩
    cases made
    exact ⟨inner, middle, read, rfl, rfl⟩
  · rintro ⟨inner, middle, read, rfl, rfl⟩
    exact ⟨_, _, ⟨rfl, rfl⟩, inner, middle, read, rfl⟩

/-- A list in parentheses ends before the closing one. Otherwise there is one more item, and
a separator behind it. -/
structure ListsItems
    (stream : Stream)
    (item : Parser NodeId)
    (reason : String)
    (list : Nat -> Parser (List NodeId)) : Prop where
  zero : list 0 = endless
  closed : ∀ {before bound}, stream.kindAt? before.position = some .closeParen ->
    list (bound + 1) before = .ok [] before
  more : ∀ {before bound kind}, stream.kindAt? before.position = some kind ->
    kind ≠ .closeParen ->
      list (bound + 1) before =
        (do
          let first <- item
          separator stream reason
          return first :: (<- list bound)) before

theorem lists_arguments :
    ListsItems stream (self (.expr .lowest)) "expected `,` or `)` in argument list"
      (arguments stream self) where
  zero := rfl
  closed present := by
    simp only [arguments, bind, EStateM.bind, nextKind_eq present, if_true]
    rfl
  more present goesOn := by
    simp only [arguments, bind, EStateM.bind, nextKind_eq present, goesOn, if_false]

theorem lists_parameters :
    ListsItems stream (identifier stream "expected parameter name")
      "expected `,` or `)` in parameter list" (parameters stream) where
  zero := rfl
  closed present := by
    simp only [parameters, bind, EStateM.bind, nextKind_eq present, if_true]
    rfl
  more present goesOn := by
    simp only [parameters, bind, EStateM.bind, nextKind_eq present, goesOn, if_false]

section Items

variable
  {item : Parser NodeId}
  {reason : String}
  {list : Nat -> Parser (List NodeId)}
  (lists : ListsItems stream item reason list)
  (steady : Steady stream item)

include lists steady

theorem ListsItems.succ (ready : Ready stream before) {bound : Nat} {ids : List NodeId} :
    list (bound + 1) before = .ok ids after ↔
      (stream.kindAt? before.position = some .closeParen ∧ ids = [] ∧ after = before) ∨
        (stream.kindAt? before.position ≠ some .closeParen ∧
          ∃ first rest middle next,
            ids = first :: rest ∧
              item before = .ok first middle ∧
              ((stream.kindAt? middle.position = some .comma ∧ next = advanced middle) ∨
                (stream.kindAt? middle.position = some .closeParen ∧ next = middle)) ∧
              list bound next = .ok rest after) := by
  obtain ⟨kind, present⟩ := ready.exists_kindAt?
  by_cases isClosed : kind = .closeParen
  · subst isClosed
    rw [lists.closed present]
    simp [present, eq_comm]
  · rw [lists.more present isClosed]
    simp only [present, Option.some.injEq, isClosed, ne_eq, not_false_eq_true, false_and,
      true_and, false_or, bind_eq_ok, pure_eq_ok]
    constructor
    · rintro ⟨first, middle, read, _, next, separated, rest, _, restRead, rfl, rfl⟩
      rw [separator_eq_ok (steady _ _ _ ready read).ready] at separated
      exact ⟨first, rest, middle, next, rfl, read, separated, restRead⟩
    · rintro ⟨first, rest, middle, next, rfl, read, separated, restRead⟩
      rw [← separator_eq_ok (steady _ _ _ ready read).ready] at separated
      exact ⟨first, middle, read, ⟨⟩, next, separated, rest, _, restRead, rfl, rfl⟩

theorem ListsItems.steady_list (ends : stream.Ends) (bound : Nat) :
    Steady stream (list bound) := by
  induction bound with
  | zero =>
      intro before ids after _ read
      rw [lists.zero] at read
      exact (endless_eq_ok.mp read).elim
  | succ bound ih =>
      intro before ids after ready read
      rcases (lists.succ steady ready).mp read with ⟨-, -, rfl⟩ |
        ⟨-, first, rest, middle, next, -, firstRead, separated, restRead⟩
      · exact .refl ready
      · have early := steady _ _ _ ready firstRead
        rcases separated with ⟨isComma, rfl⟩ | ⟨isClosed, rfl⟩
        · have later := ih _ _ _
            (ready_advanced ends isComma (by decide)) restRead
          exact early.append (.cons isComma (by decide) later)
        · exact early.append (ih _ _ _ (ready_of_kindAt? isClosed) restRead)

end Items

/-- What is asked for in parentheses is read steadily. -/
theorem AllSteady.lowest (steady : AllSteady stream self) :
    Steady stream (self (.expr .lowest)) :=
  fun _ _ _ ready read => steady _ _ _ _ ready read trivial

theorem steady_identifier (ends : stream.Ends) (reason : String) :
    Steady stream (identifier stream reason) := by
  intro before id after ready read
  obtain ⟨isName, -, rfl⟩ := of_identifier_eq_ok ready read
  exact .cons isName (by decide) (.refl (ready_advanced ends isName (by decide)))

theorem call_eq_ok
    (ends : stream.Ends)
    (argumentsSteady : Steady stream (arguments stream self (listBound stream)))
    (ready : Ready stream before)
    {callee : NodeId} :
    call stream self callee before = .ok id after ↔
      stream.kindAt? before.position = some .openParen ∧
        ∃ ids middle,
          arguments stream self (listBound stream) (advanced before) = .ok ids middle ∧
            stream.kindAt? middle.position = some .closeParen ∧
            id = middle.nodes.size ∧
            after = withNode
              (withRun (withRun (advanced middle) ids)
                [middle.extra.size, middle.extra.size + ids.length])
              ⟨.call, before.position, callee, (withRun (advanced middle) ids).extra.size⟩ := by
  simp only [call, bind_eq_ok, discard_eq_ok, expect_eq_ok ready .openParen (by decide)]
  constructor
  · rintro ⟨_, _, ⟨opened, rfl, rfl⟩, ids, middle, read, _, _, ⟨_, closes⟩, made⟩
    have middleReady := (argumentsSteady _ _ _ (ready_advanced ends opened (by decide)) read).ready
    obtain ⟨closed, -, rfl⟩ := (expect_eq_ok middleReady _ (by decide)).mp closes
    simp only [addRun_eq, EStateM.Result.ok.injEq] at made
    obtain ⟨_, _, ⟨rfl, rfl⟩, _, _, ⟨rfl, rfl⟩, made⟩ := made
    cases made
    exact ⟨opened, ids, middle, read, closed, rfl, rfl⟩
  · rintro ⟨opened, ids, middle, read, closed, rfl, rfl⟩
    refine ⟨_, _, ⟨opened, rfl, rfl⟩, ids, middle, read, ⟨⟩, advanced middle,
      ⟨middle.position, ?_⟩, _, _,
      addRun_eq ids, _, _, addRun_eq _, rfl⟩
    exact (expect_eq_ok (ready_of_kindAt? closed) _ (by decide)).mpr ⟨closed, rfl, rfl⟩

/-- How tightly the next token binds an expression that stands before it. -/
def rankAt (stream : Stream) (place : Nat) : Nat :=
  ((stream.kindAt? place).map fun kind => (Grammar.standard.power kind).rank).getD 0

theorem rankAt_eq
    {place : Nat}
    {kind : Token.Kind}
    (present : stream.kindAt? place = some kind) :
    rankAt stream place = (Grammar.standard.power kind).rank := by
  simp [rankAt, present]

/-- An expression ends before a token that does not bind it tighter than the floor. -/
theorem continuations_eq_of_le
    (ready : Ready stream before)
    {floor : Power}
    (weak : rankAt stream before.position ≤ floor.rank)
    (bound : Nat)
    (left : NodeId) :
    continuations .standard stream self floor (bound + 1) left before = .ok left before := by
  obtain ⟨kind, present⟩ := ready.exists_kindAt?
  rw [rankAt_eq present] at weak
  rw [continuations, bind_eq_ok]
  refine ⟨_, _, nextKind_eq present, ?_⟩
  cases found : Grammar.standard.continuation kind with
  | none => rfl
  | some entry =>
      obtain ⟨power, continuation⟩ := entry
      simp only [Grammar.power, found] at weak
      simp only [weak, if_true]
      rfl

/-- An expression goes on with a token that binds it tighter than the floor. -/
theorem continuations_eq_of_lt
    {floor power : Power}
    {continuation : Continuation}
    {kind : Token.Kind}
    (present : stream.kindAt? before.position = some kind)
    (found : Grammar.standard.continuation kind = some (power, continuation))
    (tight : floor.rank < power.rank)
    (bound : Nat)
    (left : NodeId) :
    continuations .standard stream self floor (bound + 1) left before =
      (self (.continuation continuation left power) >>=
        continuations .standard stream self floor bound) before := by
  rw [continuations]
  simp only [bind, EStateM.bind, nextKind_eq present, found, Nat.not_le.mpr tight, if_false]

theorem expr_eq
    {kind : Token.Kind}
    {construct : Construct}
    (present : stream.kindAt? before.position = some kind)
    (found : Grammar.standard.operand kind = some construct)
    (floor : Power) :
    expr .standard stream self floor before =
      (self (.construct construct) >>=
        continuations .standard stream self floor (listBound stream)) before := by
  simp only [expr, bind, EStateM.bind, nextKind_eq present, found]

theorem expr_eq_ok (ready : Ready stream before) {floor : Power} :
    expr .standard stream self floor before = .ok id after ↔
      ∃ kind construct left middle,
        stream.kindAt? before.position = some kind ∧
          Grammar.standard.operand kind = some construct ∧
          self (.construct construct) before = .ok left middle ∧
          continuations .standard stream self floor (listBound stream) left middle =
            .ok id after := by
  obtain ⟨kind, present⟩ := ready.exists_kindAt?
  constructor
  · intro read
    cases found : Grammar.standard.operand kind with
    | none =>
        simp only [expr, bind_eq_ok, nextKind_eq present, EStateM.Result.ok.injEq] at read
        obtain ⟨_, _, ⟨rfl, rfl⟩, read⟩ := read
        simp [found, bind_eq_ok, reject_eq_ok] at read
    | some construct =>
        rw [expr_eq present found, bind_eq_ok] at read
        obtain ⟨left, middle, leftRead, restRead⟩ := read
        exact ⟨kind, construct, left, middle, present, found, leftRead, restRead⟩
  · rintro ⟨_, construct, left, middle, same, found, leftRead, restRead⟩
    rw [expr_eq same found, bind_eq_ok]
    exact ⟨left, middle, leftRead, restRead⟩

/-- A statement without a table entry is an expression, or an assignment to one. -/
theorem statement_eq_ok
    (ends : stream.Ends)
    (steady : AllSteady stream self)
    {kind : Token.Kind}
    (present : stream.kindAt? before.position = some kind)
    (found : Grammar.standard.statement kind = none) :
    statement .standard stream self before = .ok id after ↔
      ∃ target middle, self (.construct .expression) before = .ok target middle ∧
        ((stream.kindAt? middle.position ≠ some .assignment ∧
            ∃ stop, stream.IsTerminator middle.position stop ∧
              id = middle.nodes.size ∧
              after = withNode { middle with position := stop }
                ⟨.evaluate, before.position, target, 0⟩) ∨
          (stream.kindAt? middle.position = some .assignment ∧
            ∃ value next stop,
              self (.construct .expression) (advanced middle) = .ok value next ∧
                stream.IsTerminator next.position stop ∧
                id = next.nodes.size ∧
                after = withNode { next with position := stop }
                  ⟨.assign, middle.position, target, value⟩)) := by
  have ready := ready_of_kindAt? present
  simp only [statement, bind_eq_ok, nextKind_eq present, EStateM.Result.ok.injEq]
  constructor
  · rintro ⟨_, _, ⟨rfl, rfl⟩, read⟩
    simp only [found, bind_eq_ok, nextId_eq ready, EStateM.Result.ok.injEq] at read
    obtain ⟨_, _, ⟨rfl, rfl⟩, target, middle, targetRead, nextKind, _, nextFound, read⟩ := read
    have middleReady : Ready stream middle := (steady _ _ _ _ ready targetRead trivial).ready
    obtain ⟨kind, kindPresent⟩ := middleReady.exists_kindAt?
    rw [nextKind_eq kindPresent] at nextFound
    cases nextFound
    refine ⟨target, middle, targetRead, ?_⟩
    simp only [ite_eq_ok, bind_eq_ok] at read
    rcases read with ⟨rfl, _, _, advances, value, next, valueRead, _, _, ended, made⟩ |
      ⟨other, _, _, ended, made⟩
    · rw [advance_eq kindPresent (by decide)] at advances
      cases advances
      have nextReady := (steady _ _ _ _
        (ready_advanced ends kindPresent (by decide)) valueRead trivial).ready
      obtain ⟨stop, terminates, rfl⟩ := (terminator_eq_ok nextReady).mp ended
      cases made
      exact .inr ⟨kindPresent, value, next, stop, valueRead, terminates, rfl, rfl⟩
    · obtain ⟨stop, terminates, rfl⟩ := (terminator_eq_ok middleReady).mp ended
      cases made
      exact .inl ⟨by simpa [kindPresent] using other, stop, terminates, rfl, rfl⟩
  · rintro ⟨target, middle, targetRead, cases⟩
    have middleReady : Ready stream middle := (steady _ _ _ _ ready targetRead trivial).ready
    obtain ⟨kind, kindPresent⟩ := middleReady.exists_kindAt?
    refine ⟨_, _, ⟨rfl, rfl⟩, ?_⟩
    simp only [found, bind_eq_ok]
    refine ⟨_, _, nextId_eq ready, target, middle, targetRead, kind, middle,
      nextKind_eq kindPresent, ?_⟩
    simp only [ite_eq_ok, bind_eq_ok]
    rcases cases with ⟨other, stop, terminates, rfl, rfl⟩ |
      ⟨isAssignment, value, next, stop, valueRead, terminates, rfl, rfl⟩
    · exact .inr ⟨by simpa [kindPresent] using other, ⟨⟩, _,
        (terminator_eq_ok middleReady).mpr ⟨stop, terminates, rfl⟩, rfl⟩
    · have nextReady := (steady _ _ _ _
        (ready_advanced ends isAssignment (by decide)) valueRead trivial).ready
      exact .inl ⟨by simpa [kindPresent] using isAssignment, _, _,
        advance_eq isAssignment (by decide), value, next, valueRead, ⟨⟩, _,
        (terminator_eq_ok nextReady).mpr ⟨stop, terminates, rfl⟩, rfl⟩

theorem statement_eq_of_entry
    {kind : Token.Kind}
    (present : stream.kindAt? before.position = some kind)
    {construct : Construct}
    (found : Grammar.standard.statement kind = some construct) :
    statement .standard stream self before = self (.construct construct) before := by
  simp only [statement, bind, EStateM.bind, nextKind_eq present, found]

/-- The progress made by reading a word of a declaration and the name after it. -/
def withName (progress : Progress) : Progress :=
  withLeaf (advanced progress) .identifier

theorem of_binding_eq_ok
    (ends : stream.Ends)
    (steady : AllSteady stream self)
    {isConstant : Bool}
    (present : stream.kindAt? before.position = some (Stream.bindingKind isConstant))
    (read : binding stream self before = .ok id after) :
    stream.kindAt? (before.position + 1) = some .identifier ∧
      stream.kindAt? (before.position + 2) = some .assignment ∧
        ∃ value next stop,
          self (.construct .expression) (advanced (withName before)) = .ok value next ∧
            stream.IsTerminator next.position stop ∧
            id = next.nodes.size ∧
            after = withNode { next with position := stop }
              ⟨Tag.ofBinding isConstant, before.position, before.nodes.size, value⟩ := by
  have goesOn : Stream.bindingKind isConstant ≠ .endOfFile := by
    cases isConstant <;> decide
  simp only [binding, bind_eq_ok, nextKind_eq present, EStateM.Result.ok.injEq,
    discard_eq_ok] at read
  obtain ⟨_, _, ⟨rfl, rfl⟩, token, first, advances, name, second, named, diagnostic, third,
    misplaces, _, _, ⟨_, assigned⟩, value, next, valueRead, _, _, ended, made⟩ := read
  rw [advance_eq present goesOn] at advances
  cases advances
  obtain ⟨isName, rfl, rfl⟩ := of_identifier_eq_ok (ready_advanced ends present goesOn) named
  have namedReady : Ready stream (withName before) := ready_advanced ends isName (by decide)
  rw [eq_of_misplaced_eq_ok namedReady misplaces] at assigned
  obtain ⟨isAssignment, -, rfl⟩ := (expectOr_eq_ok namedReady (by decide)).mp assigned
  have nextReady := (steady _ _ _ _ (ready_advanced ends isAssignment (by decide)) valueRead
    trivial).ready
  obtain ⟨stop, terminates, rfl⟩ := (terminator_eq_ok nextReady).mp ended
  cases made
  refine ⟨isName, isAssignment, value, next, stop, valueRead, terminates, rfl, ?_⟩
  cases isConstant <;> rfl

theorem binding_eq
    (located : stream.HasLocations)
    {isConstant : Bool}
    (present : stream.kindAt? before.position = some (Stream.bindingKind isConstant))
    (isName : stream.kindAt? (before.position + 1) = some .identifier)
    (isAssignment : stream.kindAt? (before.position + 2) = some .assignment)
    {value : NodeId}
    {next : Progress}
    {stop : Nat}
    (valueRead :
      self (.construct .expression) (advanced (withName before)) = .ok value next)
    (terminates : stream.IsTerminator next.position stop)
    (nextReady : Ready stream next) :
    binding stream self before =
      .ok next.nodes.size (withNode { next with position := stop }
        ⟨Tag.ofBinding isConstant, before.position, before.nodes.size, value⟩) := by
  have goesOn : Stream.bindingKind isConstant ≠ .endOfFile := by
    cases isConstant <;> decide
  have namedReady : Ready stream (withName before) := ready_of_kindAt? isAssignment
  obtain ⟨diagnostic, misplaces⟩ := exists_misplaced_eq located namedReady
    "expected `=` and an initial value"
  simp only [binding, bind_eq_ok, discard_eq_ok]
  refine ⟨_, _, nextKind_eq present, _, _, advance_eq present goesOn, _, _,
    identifier_eq located isName _, diagnostic, _, misplaces, ⟨⟩, _,
    ⟨_, (expectOr_eq_ok namedReady (by decide)).mpr ⟨isAssignment, rfl, rfl⟩⟩,
    value, next, valueRead, ⟨⟩, _,
    (terminator_eq_ok nextReady).mpr ⟨stop, terminates, rfl⟩, ?_⟩
  cases isConstant <;> rfl

/-- A list of statements ends before a token of the kind that closes it. Otherwise there is
a semicolon or one more statement, and no list goes beyond the end of the file. -/
structure ListsStatements
    (stream : Stream)
    (closing : Token.Kind)
    (phrases : Phrase -> Parser NodeId)
    (list : Nat -> Parser (List NodeId)) : Prop where
  closes : closing = .closeCurly ∨ closing = .endOfFile
  zero : list 0 = endless
  closed : ∀ {before bound}, stream.kindAt? before.position = some closing ->
    list (bound + 1) before = .ok [] before
  unclosed : ∀ {before bound}, stream.kindAt? before.position = some .endOfFile ->
    closing ≠ .endOfFile ->
      list (bound + 1) before = (do reject (<- misplaced stream "unclosed block")) before
  skip : ∀ {before bound}, stream.kindAt? before.position = some .semicolon ->
    list (bound + 1) before = list bound (advanced before)
  more : ∀ {before bound kind}, stream.kindAt? before.position = some kind ->
    kind ≠ closing -> kind ≠ .endOfFile -> kind ≠ .semicolon ->
      list (bound + 1) before =
        (do
          let statement <- phrases (.construct .statement)
          return statement :: (<- list bound)) before

theorem ListsStatements.succ
    {closing : Token.Kind}
    {list : Nat -> Parser (List NodeId)}
    (lists : ListsStatements stream closing self list)
    (ready : Ready stream before)
    {bound : Nat}
    {ids : List NodeId} :
    list (bound + 1) before = .ok ids after ↔
      (stream.kindAt? before.position = some closing ∧ ids = [] ∧ after = before) ∨
        (stream.kindAt? before.position = some .semicolon ∧
          list bound (advanced before) = .ok ids after) ∨
        (∃ kind, stream.kindAt? before.position = some kind ∧
          kind ≠ closing ∧ kind ≠ .endOfFile ∧ kind ≠ .semicolon ∧
            ∃ statement rest middle,
              ids = statement :: rest ∧
                self (.construct .statement) before = .ok statement middle ∧
                list bound middle = .ok rest after) := by
  obtain ⟨kind, present⟩ := ready.exists_kindAt?
  by_cases isClosing : kind = closing
  · subst isClosing
    rw [lists.closed present]
    rcases lists.closes with rfl | rfl <;> simp [present, eq_comm]
  by_cases isEnd : kind = .endOfFile
  · subst isEnd
    rw [lists.unclosed present (Ne.symm isClosing)]
    simp [present, isClosing, bind_eq_ok, reject_eq_ok]
  by_cases isSemicolon : kind = .semicolon
  · subst isSemicolon
    rw [lists.skip present]
    simp [present, isClosing]
  · rw [lists.more present isClosing isEnd isSemicolon]
    simp only [present, Option.some.injEq, isClosing, isSemicolon, false_and, false_or,
      bind_eq_ok, pure_eq_ok]
    constructor
    · rintro ⟨statement, middle, statementRead, rest, _, restRead, rfl, rfl⟩
      exact ⟨kind, rfl, isClosing, isEnd, isSemicolon, statement, rest, middle, rfl,
        statementRead, restRead⟩
    · rintro ⟨_, rfl, -, -, -, statement, rest, middle, rfl, statementRead, restRead⟩
      exact ⟨statement, middle, statementRead, rest, _, restRead, rfl, rfl⟩

theorem lists_blockStatements :
    ListsStatements stream .closeCurly self (blockStatements stream self) where
  closes := .inl rfl
  zero := rfl
  closed present := by
    simp only [blockStatements, bind, EStateM.bind, nextKind_eq present]
    rfl
  unclosed present _ := by
    simp only [blockStatements, bind, EStateM.bind, nextKind_eq present]
  skip present := by
    simp only [blockStatements, bind, EStateM.bind, nextKind_eq present,
      discard_semicolon_eq present]
  more present notBrace notEnd notSemicolon := by
    simp only [blockStatements, bind, EStateM.bind, nextKind_eq present]

theorem block_eq_ok
    (ends : stream.Ends)
    (statementsSteady : Steady stream (blockStatements stream self (listBound stream)))
    (ready : Ready stream before) :
    block stream self before = .ok id after ↔
      stream.kindAt? before.position = some .openCurly ∧
        ∃ ids middle,
          blockStatements stream self (listBound stream) (advanced before) =
              .ok ids middle ∧
            stream.kindAt? middle.position = some .closeCurly ∧
            id = middle.nodes.size ∧
            after = withBlock (advanced middle) ids before.position := by
  simp only [block, bind_eq_ok, discard_eq_ok, expect_eq_ok ready .openCurly (by decide)]
  constructor
  · rintro ⟨_, _, ⟨opened, rfl, rfl⟩, ids, middle, read, _, _, ⟨_, closes⟩, made⟩
    have middleReady := (statementsSteady _ _ _ (ready_advanced ends opened (by decide)) read).ready
    obtain ⟨closed, -, rfl⟩ := (expect_eq_ok middleReady _ (by decide)).mp closes
    simp only [addRun_eq, EStateM.Result.ok.injEq] at made
    obtain ⟨_, _, ⟨rfl, rfl⟩, made⟩ := made
    cases made
    exact ⟨opened, ids, middle, read, closed, rfl, rfl⟩
  · rintro ⟨opened, ids, middle, read, closed, rfl, rfl⟩
    refine ⟨_, _, ⟨opened, rfl, rfl⟩, ids, middle, read, ⟨⟩, advanced middle,
      ⟨middle.position, ?_⟩, _, _, addRun_eq ids, rfl⟩
    exact (expect_eq_ok (ready_of_kindAt? closed) _ (by decide)).mpr ⟨closed, rfl, rfl⟩

/-- The progress made by reading what stands before the parameters of a function. -/
def withFunctionName (progress : Progress) : Progress :=
  advanced (withName progress)

theorem of_function_eq_ok
    (ends : stream.Ends)
    (parametersSteady : Steady stream (parameters stream (listBound stream)))
    (present : stream.kindAt? before.position = some .fnWord)
    (read : function stream self before = .ok id after) :
    stream.kindAt? (before.position + 1) = some .identifier ∧
      stream.kindAt? (before.position + 2) = some .openParen ∧
        ∃ ids middle body last depth,
          parameters stream (listBound stream) (withFunctionName before) = .ok ids middle ∧
            stream.kindAt? middle.position = some .closeParen ∧
            self (.construct .block) (entered (advanced middle)) = .ok body last ∧
            last.depth = depth + 1 ∧
            id = last.nodes.size ∧
            after = withFunction { last with depth } ids body before.position
              before.nodes.size := by
  simp only [function, bind_eq_ok, discard_eq_ok, advance_eq present (by decide),
    EStateM.Result.ok.injEq, withinFunction_eq_ok, addRun_eq] at read
  obtain ⟨_, _, ⟨rfl, rfl⟩, name, named, nameRead, _, _, ⟨_, opens⟩, ids, middle,
    parametersRead, _, _, ⟨_, closes⟩, body, _, ⟨last, depth, bodyRead, lastDepth, rfl⟩,
    _, _, ⟨rfl, rfl⟩, _, _, ⟨rfl, rfl⟩, made⟩ := read
  obtain ⟨isName, rfl, rfl⟩ :=
    of_identifier_eq_ok (ready_advanced ends present (by decide)) nameRead
  have namedReady : Ready stream (withName before) := ready_advanced ends isName (by decide)
  obtain ⟨opened, -, rfl⟩ := (expect_eq_ok namedReady _ (by decide)).mp opens
  have middleReady := (parametersSteady _ _ _
    (ready_advanced ends opened (by decide)) parametersRead).ready
  obtain ⟨closed, -, rfl⟩ := (expect_eq_ok middleReady _ (by decide)).mp closes
  cases made
  exact ⟨isName, opened, ids, middle, body, last, depth, parametersRead, closed, bodyRead,
    lastDepth, rfl, rfl⟩

theorem function_eq
    (located : stream.HasLocations)
    (present : stream.kindAt? before.position = some .fnWord)
    (isName : stream.kindAt? (before.position + 1) = some .identifier)
    (opened : stream.kindAt? (before.position + 2) = some .openParen)
    {ids : List NodeId}
    {middle last : Progress}
    {body : NodeId}
    {depth : Nat}
    (parametersRead :
      parameters stream (listBound stream) (withFunctionName before) = .ok ids middle)
    (closed : stream.kindAt? middle.position = some .closeParen)
    (bodyRead : self (.construct .block) (entered (advanced middle)) = .ok body last)
    (lastDepth : last.depth = depth + 1) :
    function stream self before =
      .ok last.nodes.size
        (withFunction { last with depth } ids body before.position before.nodes.size) := by
  have namedReady : Ready stream (withName before) := ready_of_kindAt? opened
  simp only [function, bind_eq_ok, discard_eq_ok]
  exact ⟨_, _, advance_eq present (by decide), _, _, identifier_eq located isName _,
    ⟨⟩, _, ⟨_, (expect_eq_ok namedReady _ (by decide)).mpr ⟨opened, rfl, rfl⟩⟩,
    ids, middle, parametersRead, ⟨⟩, _,
    ⟨_, (expect_eq_ok (ready_of_kindAt? closed) _ (by decide)).mpr ⟨closed, rfl, rfl⟩⟩,
    body, _, withinFunction_eq_ok.mpr ⟨last, depth, bodyRead, lastDepth, rfl⟩,
    _, _, addRun_eq ids, _, _, addRun_eq _, rfl⟩

/-- A return is read only inside of a function. -/
theorem depth_pos_of_returnStatement
    (read : returnStatement stream self before = .ok id after) :
    0 < before.depth := by
  have inside : inFunction before = .ok (decide (0 < before.depth)) before := rfl
  by_contra outside
  simp only [returnStatement, bind_eq_ok, inside, EStateM.Result.ok.injEq] at read
  obtain ⟨_, _, ⟨rfl, rfl⟩, read⟩ := read
  simp only [outside, decide_false, Bool.not_false, if_true, bind_eq_ok, reject_eq_ok] at read
  obtain ⟨_, _, -, _, _, impossible, -⟩ := read
  exact impossible

/-- A return ends right after its word if a statement can end there. -/
theorem returnStatement_eq_of_isTerminator
    (ends : stream.Ends)
    (inside : 0 < before.depth)
    (present : stream.kindAt? before.position = some .returnWord)
    {stop : Nat}
    (terminates : stream.IsTerminator (before.position + 1) stop) :
    returnStatement stream self before =
      .ok before.nodes.size (withNode { before with position := stop }
        ⟨.return, before.position, Node.absent, 0⟩) := by
  have ready : Ready stream (advanced before) := ready_advanced ends present (by decide)
  have ended : terminator stream (advanced before) =
      .ok ⟨⟩ { before with position := stop } :=
    (terminator_eq_ok ready).mpr ⟨stop, terminates, rfl⟩
  simp only [returnStatement, bind_eq_ok]
  refine ⟨_, _, rfl, ?_⟩
  simp only [inside, decide_true, Bool.not_true, Bool.false_eq_true, if_false, bind_eq_ok]
  refine ⟨_, _, advance_eq present (by decide), ?_⟩
  cases terminates with
  | semicolon found =>
      refine ⟨_, _, nextKind_eq found, ?_⟩
      simp only [bind_eq_ok]
      exact ⟨_, _, rfl, ⟨⟩, _, ended, rfl⟩
  | brace found =>
      refine ⟨_, _, nextKind_eq found, ?_⟩
      simp only [bind_eq_ok]
      exact ⟨_, _, rfl, ⟨⟩, _, ended, rfl⟩
  | endOfFile found =>
      refine ⟨_, _, nextKind_eq found, ?_⟩
      simp only [bind_eq_ok]
      exact ⟨_, _, rfl, ⟨⟩, _, ended, rfl⟩

/-- A return has a value if no statement can end right after its word. -/
theorem returnStatement_eq_ok
    (ends : stream.Ends)
    (steady : AllSteady stream self)
    (inside : 0 < before.depth)
    (present : stream.kindAt? before.position = some .returnWord)
    (goesOn : ∀ stop, ¬ stream.IsTerminator (before.position + 1) stop) :
    returnStatement stream self before = .ok id after ↔
      ∃ value next stop,
        self (.construct .expression) (advanced before) = .ok value next ∧
          stream.IsTerminator next.position stop ∧
          id = next.nodes.size ∧
          after = withNode { next with position := stop }
            ⟨.return, before.position, value, 0⟩ := by
  have ready : Ready stream (advanced before) := ready_advanced ends present (by decide)
  obtain ⟨kind, found⟩ := ready.exists_kindAt?
  have notSemicolon : kind ≠ .semicolon := by
    rintro rfl
    exact goesOn _ (.semicolon found)
  have notBrace : kind ≠ .closeCurly := by
    rintro rfl
    exact goesOn _ (.brace found)
  have notEnd : kind ≠ .endOfFile := by
    rintro rfl
    exact goesOn _ (.endOfFile found)
  have isInside : inFunction before = .ok (decide (0 < before.depth)) before := rfl
  simp only [returnStatement, bind_eq_ok, isInside, EStateM.Result.ok.injEq]
  constructor
  · rintro ⟨_, _, ⟨rfl, rfl⟩, read⟩
    simp only [inside, decide_true, Bool.not_true, Bool.false_eq_true, if_false, bind_eq_ok,
      advance_eq present (by decide), EStateM.Result.ok.injEq] at read
    obtain ⟨_, _, ⟨rfl, rfl⟩, _, _, kindRead, read⟩ := read
    rw [nextKind_eq found] at kindRead
    cases kindRead
    split at read
    case _ => exact (notSemicolon rfl).elim
    case _ => exact (notBrace rfl).elim
    case _ => exact (notEnd rfl).elim
    case _ =>
      simp only [bind_eq_ok] at read
      obtain ⟨value, next, valueRead, _, _, ended, made⟩ := read
      have nextReady := (steady _ _ _ _ ready valueRead trivial).ready
      obtain ⟨stop, terminates, rfl⟩ := (terminator_eq_ok nextReady).mp ended
      cases made
      exact ⟨value, next, stop, valueRead, terminates, rfl, rfl⟩
  · rintro ⟨value, next, stop, valueRead, terminates, rfl, rfl⟩
    have nextReady := (steady _ _ _ _ ready valueRead trivial).ready
    refine ⟨_, _, ⟨rfl, rfl⟩, ?_⟩
    simp only [inside, decide_true, Bool.not_true, Bool.false_eq_true, if_false, bind_eq_ok]
    refine ⟨_, _, advance_eq present (by decide), _, _, nextKind_eq found, ?_⟩
    split
    case _ => exact (notSemicolon rfl).elim
    case _ => exact (notBrace rfl).elim
    case _ => exact (notEnd rfl).elim
    case _ =>
      simp only [bind_eq_ok]
      exact ⟨value, next, valueRead, ⟨⟩, _,
        (terminator_eq_ok nextReady).mpr ⟨stop, terminates, rfl⟩, rfl⟩

/-! ## Steadiness -/

section Lists

variable (ends : stream.Ends)

include ends

theorem steady_parameters (bound : Nat) : Steady stream (parameters stream bound) :=
  lists_parameters.steady_list (steady_identifier ends _) ends bound

variable (steady : AllSteady stream self)

include steady

theorem steady_arguments (bound : Nat) : Steady stream (arguments stream self bound) :=
  lists_arguments.steady_list steady.lowest ends bound

theorem ListsStatements.steady_list
    {closing : Token.Kind}
    {list : Nat -> Parser (List NodeId)}
    (lists : ListsStatements stream closing self list)
    (bound : Nat) :
    Steady stream (list bound) := by
  induction bound with
  | zero =>
      intro before ids after _ read
      rw [lists.zero] at read
      exact (endless_eq_ok.mp read).elim
  | succ bound ih =>
      intro before ids after ready read
      rcases (lists.succ ready).mp read with ⟨-, -, rfl⟩ | ⟨isSemicolon, restRead⟩ |
        ⟨kind, -, -, -, -, statement, rest, middle, -, statementRead, restRead⟩
      · exact .refl ready
      · exact .cons isSemicolon (by decide) (ih _ _ _
          (ready_advanced ends isSemicolon (by decide)) restRead)
      · have early := steady _ _ _ _ ready statementRead trivial
        exact early.append (ih _ _ _ early.ready restRead)

omit ends in
theorem steady_continuations (floor : Power) (bound : Nat) (left : NodeId) :
    Steady stream (continuations .standard stream self floor bound left) := by
  induction bound generalizing left with
  | zero =>
      intro before id after _ read
      exact (endless_eq_ok.mp read).elim
  | succ bound ih =>
      intro before id after ready read
      by_cases weak : rankAt stream before.position ≤ floor.rank
      · rw [continuations_eq_of_le ready weak] at read
        cases read
        exact .refl ready
      · obtain ⟨kind, present⟩ := ready.exists_kindAt?
        rw [rankAt_eq present, Grammar.power] at weak
        cases found : Grammar.standard.continuation kind with
        | none => simp [found, Power.rank] at weak
        | some entry =>
            simp only [found, Nat.not_le] at weak
            rw [continuations_eq_of_lt present found weak, bind_eq_ok] at read
            obtain ⟨longer, middle, longerRead, restRead⟩ := read
            have early := steady _ _ _ _ ready longerRead trivial
            exact early.append (ih longer _ _ _ early.ready restRead)

/-- One more level of calls keeps the parsers of phrases steady. -/
theorem allSteady_phraseStep : AllSteady stream (phraseStep .standard stream self) := by
  intro request before id after ready read suits
  match request with
  | .construct .primary =>
      have valued := isValued_of_primary ready read
      obtain ⟨kind, tag, present, found, -, rfl⟩ := of_primary_eq_ok ready read
      refine ⟨ready_advanced ends present ?_, valued⟩
      rintro rfl
      cases found
  | .construct .operation =>
      obtain ⟨operator, operand, middle, present, operandRead, -, rfl⟩ :=
        (unaryOperation_eq_ok ready).mp read
      have later := steady _ _ _ _ (ready_advanced ends present operator.kind_ne_endOfFile)
        operandRead trivial
      exact .cons present (by cases operator <;> decide) later
  | .construct .grouping =>
      obtain ⟨opened, middle, innerRead, closed, rfl⟩ :=
        (grouping_eq_ok ends steady ready).mp read
      have inner := steady _ _ _ _ (ready_advanced ends opened (by decide)) innerRead trivial
      exact .cons opened (by decide) (inner.concat ends closed (by decide) (by decide))
  | .construct .expression =>
      obtain ⟨inner, middle, innerRead, -, rfl⟩ := (expression_eq_ok ready).mp read
      have innerSteady := steady _ _ _ _ ready innerRead trivial
      exact innerSteady
  | .construct .statement =>
      obtain ⟨kind, present⟩ := ready.exists_kindAt?
      cases found : Grammar.standard.statement kind with
      | some construct =>
          rw [phraseStep, statement_eq_of_entry present found] at read
          exact steady _ _ _ _ ready read (suits_of_statement present found)
      | none =>
          obtain ⟨target, middle, targetRead, rest⟩ :=
            (statement_eq_ok ends steady present found).mp read
          have early := steady _ _ _ _ ready targetRead trivial
          rcases rest with ⟨-, stop, terminates, -, rfl⟩ |
            ⟨isAssignment, value, next, stop, valueRead, terminates, -, rfl⟩
          · exact early.terminate ends terminates
          · have later := steady _ _ _ _
              (ready_advanced ends isAssignment (by decide)) valueRead trivial
            exact early.append (.cons isAssignment (by decide) (later.terminate ends terminates))
  | .construct .binding =>
      obtain ⟨isConstant, present⟩ := suits
      obtain ⟨isName, isAssignment, value, next, stop, valueRead, terminates, -, rfl⟩ :=
        of_binding_eq_ok ends steady present read
      have assignedReady : Ready stream (advanced (withName before)) :=
        ready_advanced ends isAssignment (by decide)
      have later := steady _ _ _ _ assignedReady valueRead trivial
      exact .cons present (by cases isConstant <;> decide) (.cons isName (by decide)
        (.cons isAssignment (by decide) (later.terminate ends terminates)))
  | .construct .block =>
      obtain ⟨opened, ids, middle, statementsRead, closed, -, rfl⟩ :=
        (block_eq_ok ends (lists_blockStatements.steady_list ends steady _) ready).mp read
      have inner := lists_blockStatements.steady_list ends steady _ _ _ _
        (ready_advanced ends opened (by decide)) statementsRead
      exact .cons opened (by decide) (inner.concat ends closed (by decide) (by decide))
  | .construct .function =>
      obtain ⟨isName, opened, ids, middle, body, last, depth, parametersRead, closed,
        bodyRead, -, -, rfl⟩ := of_function_eq_ok ends (steady_parameters ends _) suits read
      have openedReady : Ready stream (withFunctionName before) :=
        ready_advanced ends opened (by decide)
      have names := steady_parameters ends _ _ _ _ openedReady parametersRead
      have closedReady : Ready stream (entered (advanced middle)) :=
        ready_advanced ends closed (by decide)
      have inner := steady _ _ _ _ closedReady bodyRead trivial
      exact .cons suits (by decide) (.cons isName (by decide) (.cons opened (by decide)
        (names.append (.cons closed (by decide) inner))))
  | .construct .return =>
      have inside := depth_pos_of_returnStatement read
      by_cases terminates : ∃ stop, stream.IsTerminator (before.position + 1) stop
      · obtain ⟨stop, terminates⟩ := terminates
        rw [phraseStep, returnStatement_eq_of_isTerminator ends inside suits terminates] at read
        cases read
        exact .cons suits (by decide)
          ((Stream.Proceeds.refl (ready_advanced ends suits (by decide))).terminate ends terminates)
      · obtain ⟨value, next, stop, valueRead, terminates, -, rfl⟩ :=
          (returnStatement_eq_ok ends steady inside suits
            (not_exists.mp terminates)).mp read
        have later := steady _ _ _ _ (ready_advanced ends suits (by decide)) valueRead trivial
        exact .cons suits (by decide) (later.terminate ends terminates)
  | .expr floor =>
      obtain ⟨kind, construct, left, middle, present, found, leftRead, restRead⟩ :=
        (expr_eq_ok ready).mp read
      have suitable : Suits stream (.construct construct) before :=
        suits_of_operand found before
      have early := steady _ _ _ _ ready leftRead suitable
      exact early.append (steady_continuations steady _ _ _ _ _ _ early.ready restRead)
  | .continuation .operation left power =>
      obtain ⟨operator, right, middle, present, rightRead, -, rfl⟩ :=
        (binaryOperation_eq_ok ready).mp read
      have later := steady _ _ _ _ (ready_advanced ends present operator.kind_ne_endOfFile)
        rightRead trivial
      exact .cons present (by cases operator <;> decide) later
  | .continuation .call left power =>
      obtain ⟨opened, ids, middle, argumentsRead, closed, -, rfl⟩ :=
        (call_eq_ok ends (steady_arguments ends steady _) ready).mp read
      have inner := steady_arguments ends steady _ _ _ _
        (ready_advanced ends opened (by decide)) argumentsRead
      exact .cons opened (by decide) (inner.concat ends closed (by decide) (by decide))

end Lists

/-- The parsers of phrases are steady. -/
theorem allSteady_phraseWithin (ends : stream.Ends) (depth : Nat) :
    AllSteady stream (phraseWithin .standard stream depth) := by
  induction depth with
  | zero =>
      intro request before id after _ read
      exact (endless_eq_ok.mp read).elim
  | succ depth ih => exact allSteady_phraseStep ends ih

end Phrases

end Parser
end Frontend
