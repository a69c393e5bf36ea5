import Frontend.Proofs.Grammar.Exact

/-!
# Parsers move on and come to an end

From a stream that ends, a parser succeeds, fails with a diagnostic of the grammar, or
breaks off at a token whose column does not fit into a word. It does nothing else. It
never moves back, never passes a token that ends the file, and leaves as many functions
open as there were.

Every parser of a phrase that succeeds has read at least one token, but for a return at the
end of the file, and its calls for phrases are nested less deep than four times the number
of tokens that are left. So no bound on the nesting or on the length of a list is ever
reached.
-/

namespace Frontend

namespace Stream

/-- The first token that ends the file stands at this place. -/
structure EndsFirstAt (stream : Stream) (stop : Nat) : Prop where
  present : stream.kindAt? stop = some .endOfFile
  first : ∀ place < stop, stream.kindAt? place ≠ some .endOfFile

theorem Ends.exists_endsFirstAt {stream : Stream} (ends : stream.Ends) :
    ∃ stop, stream.EndsFirstAt stop := by
  have some : ∃ place, stream.kindAt? place = some .endOfFile := ⟨_, ends.last⟩
  exact ⟨Nat.find some, Nat.find_spec some, fun _ before => Nat.find_min some before⟩

/-- Reading may stop like this: with a diagnostic of the grammar, or at a token whose
column does not fit into a word. -/
def AccountsFor (stream : Stream) : Stop Diagnostic -> Prop
  | .failed diagnostic => diagnostic.cause.stage = .syntactic
  | .fault fault =>
      ∃ token ∈ stream.tokens, fault = .column token.span.start ∧
        Source.wordSize ≤ (stream.source.place token.span.start).column

/-- If the column of every token fits into a word, then no fault is accounted for. -/
theorem HasLocations.exists_eq_failed
    {stream : Stream}
    (located : stream.HasLocations)
    {reason : Stop Diagnostic}
    (accounted : stream.AccountsFor reason) :
    ∃ diagnostic, reason = .failed diagnostic ∧ diagnostic.cause.stage = .syntactic := by
  cases reason with
  | failed diagnostic => exact ⟨diagnostic, rfl, accounted⟩
  | fault fault =>
      obtain ⟨token, member, -, distant⟩ := accounted
      exact absurd (located token member) (Nat.not_lt_of_le distant)

end Stream

namespace Parser

/-! ## What a parser may do -/

/-- From one progress to another, reading does not move back, does not pass the token at
`stop`, and leaves as many functions open as there were. -/
structure Moves (stop : Nat) (before after : Progress) : Prop where
  forward : before.position ≤ after.position
  inside : after.position ≤ stop
  depth : after.depth = before.depth

namespace Moves

variable {stop : Nat} {before middle after : Progress}

theorem refl (inside : before.position ≤ stop) : Moves stop before before :=
  ⟨Nat.le_refl _, inside, rfl⟩

theorem trans (first : Moves stop before middle) (second : Moves stop middle after) :
    Moves stop before after :=
  ⟨Nat.le_trans first.forward second.forward, second.inside,
    second.depth.trans first.depth⟩

end Moves

/-- A success with what `Holds`, or a stop for a reason that is `Excused`, either after
moves that reading may make. -/
def IsOutcome
    {α : Type}
    (stop : Nat)
    (Excused : Stop Diagnostic -> Prop)
    (before : Progress)
    (Holds : α -> Progress -> Prop) :
    EStateM.Result (Stop Diagnostic) Progress α -> Prop
  | .ok value after => Moves stop before after ∧ Holds value after
  | .error reason after => Moves stop before after ∧ Excused reason

/-- What comes of later progress comes of the progress before it. -/
theorem IsOutcome.of_moves
    {α : Type}
    {stop : Nat}
    {Excused : Stop Diagnostic -> Prop}
    {before middle : Progress}
    {Holds : α -> Progress -> Prop}
    {result : EStateM.Result (Stop Diagnostic) Progress α}
    (outcome : IsOutcome stop Excused middle Holds result)
    (moves : Moves stop before middle) :
    IsOutcome stop Excused before Holds result := by
  cases result with
  | ok value after => exact ⟨moves.trans outcome.1, outcome.2⟩
  | error reason after => exact ⟨moves.trans outcome.1, outcome.2⟩

/-- From this progress the parser has such an outcome. -/
def Yields
    {α : Type}
    (stop : Nat)
    (Excused : Stop Diagnostic -> Prop)
    (parser : Parser α)
    (before : Progress)
    (Holds : α -> Progress -> Prop) : Prop :=
  IsOutcome stop Excused before Holds (parser before)

section Rules

variable
  {α β : Type}
  {stop : Nat}
  {Excused : Stop Diagnostic -> Prop}
  {before middle after : Progress}
  {Holds Weaker : α -> Progress -> Prop}
  {Later : β -> Progress -> Prop}

theorem yields_of_eq
    {parser : Parser α}
    {value : α}
    (read : parser before = .ok value after)
    (moves : Moves stop before after)
    (holds : Holds value after) :
    Yields stop Excused parser before Holds := by
  rw [Yields, read]
  exact ⟨moves, holds⟩

theorem yields_congr
    {parser other : Parser α}
    (same : parser before = other before)
    (yields : Yields stop Excused other before Holds) :
    Yields stop Excused parser before Holds := by
  rw [Yields, same]
  exact yields

theorem yields_pure
    {value : α}
    (inside : before.position ≤ stop)
    (holds : Holds value before) :
    Yields stop Excused (pure value) before Holds :=
  yields_of_eq rfl (.refl inside) holds

theorem yields_throw
    {reason : Stop Diagnostic}
    (inside : before.position ≤ stop)
    (excused : Excused reason) :
    Yields stop Excused (throw reason : Parser α) before Holds :=
  ⟨.refl inside, excused⟩

theorem Yields.mono
    {parser : Parser α}
    (yields : Yields stop Excused parser before Holds)
    (weaker : ∀ value after, Holds value after -> Weaker value after) :
    Yields stop Excused parser before Weaker := by
  unfold Yields at yields ⊢
  match parser before, yields with
  | .ok value after, ⟨moves, holds⟩ => exact ⟨moves, weaker value after holds⟩
  | .error reason after, stopped => exact stopped

/-- What holds of a success may be found by looking at how it came about. -/
theorem Yields.and_read
    {parser : Parser α}
    (yields : Yields stop Excused parser before Holds) :
    Yields stop Excused parser before fun value after =>
      parser before = .ok value after ∧ Moves stop before after ∧ Holds value after := by
  unfold Yields at yields ⊢
  match parser before, yields with
  | .ok value after, ⟨moves, holds⟩ => exact ⟨moves, rfl, moves, holds⟩
  | .error reason after, stopped => exact stopped

/-- A parser after another one starts where that one ends. -/
theorem Yields.bind
    {first : Parser α}
    {next : α -> Parser β}
    (yields : Yields stop Excused first before Holds)
    (goesOn : ∀ value middle, Moves stop before middle -> Holds value middle ->
      Yields stop Excused (next value) middle Later) :
    Yields stop Excused (first >>= next) before Later := by
  unfold Yields at yields
  change IsOutcome stop Excused before Later (EStateM.bind first next before)
  unfold EStateM.bind
  match first before, yields with
  | .ok value middle, ⟨moves, holds⟩ => exact (goesOn value middle moves holds).of_moves moves
  | .error reason middle, stopped => exact stopped

/-- A parser after one that only looks. -/
theorem yields_bind_of_eq
    {first : Parser α}
    {next : α -> Parser β}
    {value : α}
    (read : first before = .ok value before)
    (goesOn : Yields stop Excused (next value) before Later) :
    Yields stop Excused (first >>= next) before Later := by
  unfold Yields at goesOn
  change IsOutcome stop Excused before Later (EStateM.bind first next before)
  unfold EStateM.bind
  rw [read]
  exact goesOn

/-- Dropping the result of a parser. -/
theorem Yields.discard
    {parser : Parser α}
    {Reached : Progress -> Prop}
    (yields : Yields stop Excused parser before fun _ after => Reached after) :
    Yields stop Excused (discard parser) before fun _ after => Reached after := by
  unfold Yields at yields
  change IsOutcome stop Excused before _ (EStateM.map (fun _ => ()) parser before)
  unfold EStateM.map
  match parser before, yields with
  | .ok value after, holds => exact holds
  | .error reason after, stopped => exact stopped

/-- Making a node moves nowhere. -/
theorem yields_addNode
    {Reached : Nat -> Prop}
    (inside : before.position ≤ stop)
    (node : Node)
    (reached : Reached before.position) :
    Yields stop Excused (addNode node) before fun _ after => Reached after.position :=
  yields_of_eq (addNode_eq node) ⟨Nat.le_refl _, inside, rfl⟩ reached

/-- Writing a run moves nowhere. -/
theorem yields_bind_addRun
    {next : Nat × Nat -> Parser β}
    (inside : before.position ≤ stop)
    (words : List Nat)
    (goesOn : ∀ start last,
      Yields stop Excused (next (start, last)) (withRun before words) Later) :
    Yields stop Excused (addRun words >>= next) before Later := by
  have written : Yields stop Excused (addRun words) before fun _ after =>
      after = withRun before words :=
    yields_of_eq (addRun_eq words) ⟨Nat.le_refl _, inside, rfl⟩ rfl
  apply written.bind
  rintro ⟨start, last⟩ _ - rfl
  exact goesOn start last

end Rules

/-! ## Reading tokens -/

section Reading

variable
  {stream : Stream}
  {stop : Nat}
  {Excused : Stop Diagnostic -> Prop}
  (ends : stream.kindAt? stop = some .endOfFile)
  (fair : ∀ reason, stream.AccountsFor reason -> Excused reason)
  {before : Progress}
  (inside : before.position ≤ stop)

include ends inside

theorem ready_of_le : Ready stream before :=
  Nat.lt_of_le_of_lt inside (Stream.lt_size_of_kindAt? ends)

/-- A token that does not end the file stands before one that does. -/
theorem lt_of_kindAt?
    {kind : Token.Kind}
    (present : stream.kindAt? before.position = some kind)
    (goesOn : kind ≠ .endOfFile) :
    before.position < stop := by
  refine Nat.lt_of_le_of_ne inside fun same => goesOn ?_
  rw [same, ends, Option.some.injEq] at present
  exact present.symm

/-- What follows depends on the kind of the next token. -/
theorem yields_nextKind
    {α : Type}
    {Holds : α -> Progress -> Prop}
    {next : Token.Kind -> Parser α}
    (goesOn : ∀ kind, stream.kindAt? before.position = some kind ->
      Yields stop Excused (next kind) before Holds) :
    Yields stop Excused (nextKind stream >>= next) before Holds := by
  obtain ⟨kind, present⟩ := (ready_of_le ends inside).exists_kindAt?
  exact yields_bind_of_eq (nextKind_eq present) (goesOn kind present)

theorem yields_advance
    {kind : Token.Kind}
    (present : stream.kindAt? before.position = some kind)
    (goesOn : kind ≠ .endOfFile) :
    Yields stop Excused (advance stream) before fun _ after =>
      before.position < after.position :=
  yields_of_eq (advance_eq present goesOn)
    ⟨Nat.le_succ _, lt_of_kindAt? ends inside present goesOn, rfl⟩ (Nat.lt_succ_self _)

/-- A token that ends the file is not passed. -/
theorem yields_advance_any
    {kind : Token.Kind}
    (present : stream.kindAt? before.position = some kind) :
    Yields stop Excused (advance stream) before fun id after =>
      id = before.position ∧ (kind ≠ .endOfFile -> before.position < after.position) := by
  by_cases ended : kind = .endOfFile
  · have stays : advance stream before = .ok before.position before := by
      simp only [advance, bind, EStateM.bind, nextId_eq (ready_of_kindAt? present),
        nextKind_eq present, ended]
      rfl
    exact yields_of_eq stays (.refl inside) ⟨rfl, fun goesOn => absurd ended goesOn⟩
  · exact yields_of_eq (advance_eq present ended)
      ⟨Nat.le_succ _, lt_of_kindAt? ends inside present ended, rfl⟩
      ⟨rfl, fun _ => Nat.lt_succ_self _⟩

include fair

theorem yields_location :
    Yields stop Excused (location stream) before fun _ after => after = before := by
  have ready := ready_of_le ends inside
  obtain ⟨token, member, present⟩ : ∃ token ∈ stream.tokens,
      stream.tokens[before.position]? = some token :=
    ⟨_, Array.getElem_mem ready, Array.getElem?_eq_getElem ready⟩
  by_cases fits : (stream.source.place token.span.start).column < Source.wordSize
  · exact yields_of_eq ((location_eq_ok present).mpr ⟨Source.locate_eq_ok fits, rfl⟩)
      (.refl inside) rfl
  · have breaks : location stream before =
        .error (.fault (.column token.span.start)) before := by
      simp only [location, bind, EStateM.bind, next_eq present, Source.locate, if_neg fits]
      rfl
    rw [Yields, breaks]
    exact ⟨.refl inside, fair _ ⟨token, member, rfl, Nat.le_of_not_lt fits⟩⟩

theorem yields_unexpected :
    Yields stop Excused (unexpected stream) before fun diagnostic after =>
      diagnostic.cause.stage = .syntactic ∧ after = before := by
  apply yields_bind_of_eq (next_eq (Array.getElem?_eq_getElem (ready_of_le ends inside)))
  apply (yields_location ends fair inside).bind
  rintro location _ - rfl
  exact yields_pure inside ⟨rfl, rfl⟩

theorem yields_misplaced (reason : String) :
    Yields stop Excused (misplaced stream reason) before fun diagnostic after =>
      diagnostic.cause.stage = .syntactic ∧ after = before := by
  apply yields_bind_of_eq (next_eq (Array.getElem?_eq_getElem (ready_of_le ends inside)))
  apply (yields_location ends fair inside).bind
  rintro location _ - rfl
  exact yields_pure inside ⟨rfl, rfl⟩

omit ends in
theorem yields_reject
    {α : Type}
    {Holds : α -> Progress -> Prop}
    {diagnostic : Diagnostic}
    (stage : diagnostic.cause.stage = .syntactic) :
    Yields stop Excused (reject diagnostic) before Holds :=
  yields_throw inside (fair _ stage)

/-- Failing because there is no place for the next token. -/
theorem yields_reject_unexpected {α : Type} {Holds : α -> Progress -> Prop} :
    Yields stop Excused (do reject (<- unexpected stream)) before Holds := by
  apply (yields_unexpected ends fair inside).bind
  rintro diagnostic _ - ⟨stage, rfl⟩
  exact yields_reject fair inside stage

theorem yields_reject_misplaced
    {α : Type}
    {Holds : α -> Progress -> Prop}
    (reason : String) :
    Yields stop Excused (do reject (<- misplaced stream reason)) before Holds := by
  apply (yields_misplaced ends fair inside reason).bind
  rintro diagnostic _ - ⟨stage, rfl⟩
  exact yields_reject fair inside stage

theorem yields_expect {kind : Token.Kind} (goesOn : kind ≠ .endOfFile) :
    Yields stop Excused (expect stream kind) before fun _ after =>
      before.position < after.position := by
  refine yields_nextKind ends inside fun found present => ?_
  split
  next same => exact yields_advance ends inside (same ▸ present) goesOn
  next => exact yields_reject_unexpected ends fair inside

theorem yields_expectOr
    {kind : Token.Kind}
    (goesOn : kind ≠ .endOfFile)
    {diagnostic : Diagnostic}
    (stage : diagnostic.cause.stage = .syntactic) :
    Yields stop Excused (expectOr stream kind diagnostic) before fun _ after =>
      before.position < after.position := by
  refine yields_nextKind ends inside fun found present => ?_
  split
  next same => exact yields_advance ends inside (same ▸ present) goesOn
  next => exact yields_reject fair inside stage

theorem yields_terminator :
    Yields stop Excused (terminator stream) before fun _ _ => True := by
  refine yields_nextKind ends inside fun found present => ?_
  split
  case _ =>
    apply Yields.discard
    exact (yields_advance ends inside present (by decide)).mono fun _ _ _ => trivial
  case _ => exact yields_pure inside trivial
  case _ => exact yields_pure inside trivial
  case _ => exact yields_reject_misplaced ends fair inside _

theorem yields_separator (reason : String) :
    Yields stop Excused (separator stream reason) before fun _ _ => True := by
  refine yields_nextKind ends inside fun found present => ?_
  split
  case _ =>
    apply Yields.discard
    exact (yields_advance ends inside present (by decide)).mono fun _ _ _ => trivial
  case _ => exact yields_pure inside trivial
  case _ => exact yields_reject_misplaced ends fair inside _

theorem yields_identifier (reason : String) :
    Yields stop Excused (identifier stream reason) before fun _ after =>
      before.position < after.position := by
  apply (yields_misplaced ends fair inside reason).bind
  rintro diagnostic _ - ⟨stage, rfl⟩
  apply (yields_expectOr ends fair inside (by decide) stage).bind
  intro id middle moves further
  exact yields_addNode moves.inside _ further

theorem yields_primary :
    Yields stop Excused (primary stream) before fun _ after =>
      before.position < after.position := by
  have ready : before.position < stream.tokens.size := ready_of_le ends inside
  have present := Array.getElem?_eq_getElem ready
  apply yields_bind_of_eq (next_eq present)
  cases found : leafTag? stream.tokens[before.position].kind with
  | none => exact yields_reject_unexpected ends fair inside
  | some tag =>
      have goesOn : stream.tokens[before.position].kind ≠ .endOfFile := by
        intro ended
        rw [ended] at found
        cases found
      have kindPresent : stream.kindAt? before.position =
          some stream.tokens[before.position].kind := by
        simp [Stream.kindAt?, present]
      simp only
      split
      next =>
        apply (yields_location ends fair inside).bind
        rintro location _ - rfl
        exact yields_reject fair inside rfl
      next =>
        apply (yields_advance ends inside kindPresent goesOn).bind
        intro id middle moves further
        exact yields_addNode moves.inside _ further

/-- A list ends, since each item takes a token. -/
theorem ListsItems.yields_list
    {item : Parser NodeId}
    {reason : String}
    {list : Nat -> Parser (List NodeId)}
    (lists : ListsItems stream item reason list)
    {place : Nat}
    (items : ∀ before : Progress, place ≤ before.position -> before.position ≤ stop ->
      Yields stop Excused item before fun _ after => before.position < after.position)
    (bound : Nat)
    (le : place ≤ before.position)
    (enough : stream.tokens.size - before.position < bound) :
    Yields stop Excused (list bound) before fun _ _ => True := by
  induction bound generalizing before with
  | zero => omega
  | succ bound ih =>
      have ready : before.position < stream.tokens.size := ready_of_le ends inside
      obtain ⟨kind, present⟩ := Ready.exists_kindAt? ready
      by_cases isClosed : kind = .closeParen
      · exact yields_of_eq (lists.closed (isClosed ▸ present)) (.refl inside) trivial
      apply yields_congr (lists.more present isClosed)
      apply (items before le inside).bind
      intro first read moves further
      apply (yields_separator ends fair moves.inside _).bind
      intro _ separated separatedMoves _
      have forward := separatedMoves.forward
      apply (ih separatedMoves.inside (by omega) (by omega)).bind
      intro rest last lastMoves _
      exact yields_pure lastMoves.inside trivial

end Reading

/-! ## Reading phrases -/

/-- A return is asked for before the end of the file. -/
def IsTimely (stop : Nat) (request : Phrase) (before : Progress) : Prop :=
  request = .construct .return -> before.position < stop

/-- From this place on, the parser of a phrase has such an outcome, and reads at least
one token if it succeeds. Only a return at the end of the file may take none. -/
def SafeFrom
    (stream : Stream)
    (stop : Nat)
    (Excused : Stop Diagnostic -> Prop)
    (self : Phrase -> Parser NodeId)
    (request : Phrase)
    (place : Nat) : Prop :=
  ∀ before, place ≤ before.position -> before.position ≤ stop ->
    Yields stop Excused (self request) before fun _ after =>
      (request = .construct .return -> stream.kindAt? before.position ≠ some .endOfFile) ->
        before.position < after.position

theorem isTimely_of_ne
    {stop : Nat}
    {request : Phrase}
    {before : Progress}
    (other : request ≠ .construct .return) :
    IsTimely stop request before :=
  fun same => absurd same other

theorem SafeFrom.yields
    {stream : Stream}
    {stop : Nat}
    {Excused : Stop Diagnostic -> Prop}
    {self : Phrase -> Parser NodeId}
    {request : Phrase}
    {place : Nat}
    (safe : SafeFrom stream stop Excused self request place)
    (other : request ≠ .construct .return)
    {before : Progress}
    (le : place ≤ before.position)
    (inside : before.position ≤ stop) :
    Yields stop Excused (self request) before fun _ after =>
      before.position < after.position :=
  (safe before le inside).mono fun _ _ further => further fun same => absurd same other

section Phrases

variable
  {stream : Stream}
  {stop : Nat}
  {Excused : Stop Diagnostic -> Prop}
  {self : Phrase -> Parser NodeId}
  (ends : stream.kindAt? stop = some .endOfFile)
  (fair : ∀ reason, stream.AccountsFor reason -> Excused reason)
  {before : Progress}
  (inside : before.position ≤ stop)

include ends inside

theorem yields_expression
    (inner : SafeFrom stream stop Excused self (.expr .lowest) before.position) :
    Yields stop Excused (expression stream self) before fun _ after =>
      before.position < after.position := by
  apply yields_bind_of_eq (nextId_eq (ready_of_le ends inside))
  apply (inner.yields (by simp) (Nat.le_refl _) inside).bind
  intro id middle moves further
  exact yields_addNode moves.inside _ further

include fair

theorem yields_unaryOperation
    (operand : SafeFrom stream stop Excused self (.expr .unary) (before.position + 1)) :
    Yields stop Excused (unaryOperation stream self) before fun _ after =>
      before.position < after.position := by
  refine yields_nextKind ends inside fun kind present => ?_
  cases found : UnaryOperator.ofKind? kind with
  | none => exact yields_reject_unexpected ends fair inside
  | some operator =>
      have goesOn : kind ≠ .endOfFile := by
        rintro rfl
        cases found
      apply (yields_advance ends inside present goesOn).bind
      intro token next moves further
      apply (operand.yields (by simp) further moves.inside).bind
      intro id middle middleMoves evenFurther
      exact yields_addNode middleMoves.inside _ (Nat.lt_trans further evenFurther)

theorem yields_grouping
    (inner : SafeFrom stream stop Excused self (.expr .lowest) (before.position + 1)) :
    Yields stop Excused (grouping stream self) before fun _ after =>
      before.position < after.position := by
  apply (yields_expect ends fair inside (by decide)).discard.bind
  intro _ opened moves further
  apply (inner.yields (by simp) further moves.inside).bind
  intro id middle middleMoves middleFurther
  apply (yields_expect ends fair middleMoves.inside (by decide)).discard.bind
  intro _ closed closedMoves closedFurther
  exact yields_pure closedMoves.inside (by omega)

theorem yields_binaryOperation
    {power : Power}
    (right : SafeFrom stream stop Excused self (.expr power) (before.position + 1))
    (left : NodeId) :
    Yields stop Excused (binaryOperation stream self left power) before fun _ after =>
      before.position < after.position := by
  have ready := ready_of_le ends inside
  obtain ⟨kind, present⟩ := ready.exists_kindAt?
  apply yields_bind_of_eq (nextKind_eq present)
  apply (yields_advance_any ends inside present).bind
  rintro _ next moves ⟨rfl, further⟩
  cases found : BinaryOperator.ofKind? kind with
  | none =>
      have read : token stream before.position next =
          .ok stream.tokens[before.position] next := by
        simp only [token, Array.getElem?_eq_getElem ready]
        rfl
      apply yields_bind_of_eq read
      apply (yields_location ends fair moves.inside).bind
      rintro location _ - rfl
      exact yields_reject fair moves.inside rfl
  | some operator =>
      have goesOn : kind ≠ .endOfFile := by
        rintro rfl
        cases found
      apply (right.yields (by simp) (further goesOn) moves.inside).bind
      intro id middle middleMoves evenFurther
      exact yields_addNode middleMoves.inside _ (Nat.lt_trans (further goesOn) evenFurther)

theorem yields_call
    (inner : SafeFrom stream stop Excused self (.expr .lowest) (before.position + 1))
    (callee : NodeId) :
    Yields stop Excused (call stream self callee) before fun _ after =>
      before.position < after.position := by
  apply (yields_expect ends fair inside (by decide)).bind
  intro token opened moves further
  apply (lists_arguments.yields_list ends fair moves.inside
    (fun _ le inside => inner.yields (by simp) le inside) _ further
    (by rw [listBound]; omega)).bind
  intro ids middle middleMoves _
  apply (yields_expect ends fair middleMoves.inside (by decide)).discard.bind
  intro _ closed closedMoves closedFurther
  have written : (withRun closed ids).position ≤ stop := closedMoves.inside
  apply yields_bind_addRun closedMoves.inside ids
  intro start last
  apply yields_bind_addRun written
  intro header _
  have forward := middleMoves.forward
  have reached : before.position < closed.position := by omega
  exact yields_of_eq (addNode_eq _) ⟨Nat.le_refl _, closedMoves.inside, rfl⟩ reached

omit fair in
theorem yields_continuations
    {place : Nat}
    {floor : Power}
    (inner : ∀ continuation left power,
      SafeFrom stream stop Excused self (.continuation continuation left power) place)
    (bound : Nat)
    (le : place ≤ before.position)
    (enough : stream.tokens.size - before.position < bound)
    (left : NodeId) :
    Yields stop Excused (continuations .standard stream self floor bound left) before
      fun _ _ => True := by
  induction bound generalizing before left with
  | zero => omega
  | succ bound ih =>
      have ready : before.position < stream.tokens.size := ready_of_le ends inside
      obtain ⟨kind, present⟩ := Ready.exists_kindAt? ready
      apply yields_bind_of_eq (nextKind_eq present)
      split
      next => exact yields_pure inside trivial
      next power continuation found =>
        split
        next => exact yields_pure inside trivial
        next =>
          apply ((inner continuation left power).yields (by simp) le inside).bind
          intro longer middle moves further
          exact ih moves.inside (by omega) (by omega) longer

theorem yields_expr
    (operands : ∀ construct kind, Grammar.standard.operand kind = some construct ->
      SafeFrom stream stop Excused self (.construct construct) before.position)
    (inner : ∀ continuation left power,
      SafeFrom stream stop Excused self (.continuation continuation left power)
        (before.position + 1))
    (floor : Power) :
    Yields stop Excused (expr .standard stream self floor) before fun _ after =>
      before.position < after.position := by
  refine yields_nextKind ends inside fun kind present => ?_
  split
  next => exact yields_reject_unexpected ends fair inside
  next construct found =>
    have other : Phrase.construct construct ≠ .construct .return := by
      cases kind <;> cases found <;> simp
    apply ((operands construct kind found).yields other (Nat.le_refl _) inside).bind
    intro left middle moves further
    refine (yields_continuations ends moves.inside inner (listBound stream) further
      (by rw [listBound]; omega) left).and_read.mono ?_
    rintro _ after ⟨-, laterMoves, -⟩
    exact Nat.lt_of_lt_of_le further laterMoves.forward

theorem yields_statement
    (entries : ∀ construct kind, Grammar.standard.statement kind = some construct ->
      SafeFrom stream stop Excused self (.construct construct) before.position)
    (inner : SafeFrom stream stop Excused self (.construct .expression) before.position) :
    Yields stop Excused (statement .standard stream self) before fun _ after =>
      before.position < after.position := by
  refine yields_nextKind ends inside fun kind present => ?_
  split
  next construct found =>
    have goesOn : kind ≠ .endOfFile := by
      rintro rfl
      cases found
    refine (entries construct kind found before (Nat.le_refl _) inside).mono ?_
    exact fun _ _ further => further fun _ => by simpa [present] using goesOn
  next =>
    apply yields_bind_of_eq (nextId_eq (ready_of_le ends inside))
    apply (inner.yields (by simp) (Nat.le_refl _) inside).bind
    intro target middle moves further
    refine yields_nextKind ends moves.inside fun nextKind nextPresent => ?_
    split
    next isAssignment =>
      subst isAssignment
      apply (yields_advance ends moves.inside nextPresent (by decide)).bind
      intro token next nextMoves nextFurther
      apply (inner.yields (by simp) (by omega) nextMoves.inside).bind
      intro value last lastMoves lastFurther
      apply (yields_terminator ends fair lastMoves.inside).bind
      intro _ ended endedMoves _
      have forward := endedMoves.forward
      have reached : before.position < ended.position := by omega
      exact yields_addNode endedMoves.inside _ reached
    next =>
      apply (yields_terminator ends fair moves.inside).bind
      intro _ ended endedMoves _
      exact yields_addNode endedMoves.inside _ (Nat.lt_of_lt_of_le further endedMoves.forward)

/-- A declaration of a constant or a variable is read from any token on. -/
theorem yields_binding
    (inner : SafeFrom stream stop Excused self (.construct .expression) (before.position + 1)) :
    Yields stop Excused (binding stream self) before fun _ after =>
      before.position < after.position := by
  refine yields_nextKind ends inside fun kind present => ?_
  apply (yields_advance_any ends inside present).bind
  intro token next moves _
  apply (yields_identifier ends fair moves.inside _).bind
  intro name named namedMoves namedFurther
  apply (yields_misplaced ends fair namedMoves.inside _).bind
  rintro diagnostic _ - ⟨stage, rfl⟩
  apply (yields_expectOr ends fair namedMoves.inside (by decide) stage).discard.bind
  intro _ assigned assignedMoves assignedFurther
  have forward := moves.forward
  apply (inner.yields (by simp) (by omega) assignedMoves.inside).bind
  intro value last lastMoves lastFurther
  apply (yields_terminator ends fair lastMoves.inside).bind
  intro _ ended endedMoves _
  have endedForward := endedMoves.forward
  have reached : before.position < ended.position := by omega
  exact yields_addNode endedMoves.inside _ reached

/-- A return is read from any token on. -/
theorem yields_returnStatement
    (inner : SafeFrom stream stop Excused self (.construct .expression) (before.position + 1)) :
    Yields stop Excused (returnStatement stream self) before fun _ after =>
      stream.kindAt? before.position ≠ some .endOfFile -> before.position < after.position := by
  obtain ⟨kind, present⟩ := (ready_of_le ends inside).exists_kindAt?
  have read : inFunction before = .ok (decide (0 < before.depth)) before := rfl
  apply yields_bind_of_eq read
  split
  next =>
    apply (yields_misplaced ends fair inside _).bind
    rintro diagnostic _ - ⟨stage, rfl⟩
    exact yields_reject fair inside stage
  next =>
    apply (yields_advance_any ends inside present).bind
    rintro token next moves ⟨-, further⟩
    have finish : ∀ value middle, next.position ≤ middle.position ->
        middle.position ≤ stop ->
        Yields stop Excused (do
            terminator stream
            addNode { tag := .return, token, left := value, right := 0 })
          middle fun _ after =>
            stream.kindAt? before.position ≠ some .endOfFile ->
              before.position < after.position := by
      intro value middle middleForward middleInside
      apply (yields_terminator ends fair middleInside).bind
      intro _ ended endedMoves _
      have forward := endedMoves.forward
      have reached : stream.kindAt? before.position ≠ some .endOfFile ->
          before.position < ended.position := by
        intro goesOn
        have passed := further (by simpa [present] using goesOn)
        omega
      exact yields_of_eq (addNode_eq _) ⟨Nat.le_refl _, endedMoves.inside, rfl⟩ reached
    refine yields_nextKind ends moves.inside fun nextKind nextPresent => ?_
    split
    case _ => exact yields_bind_of_eq rfl (finish _ next (Nat.le_refl _) moves.inside)
    case _ => exact yields_bind_of_eq rfl (finish _ next (Nat.le_refl _) moves.inside)
    case _ => exact yields_bind_of_eq rfl (finish _ next (Nat.le_refl _) moves.inside)
    case _ _ _ goesOn =>
      have passed : before.position < next.position := by
        refine Nat.lt_of_le_of_ne moves.forward fun same => ?_
        rw [← same, present, Option.some.injEq] at nextPresent
        exact Nat.ne_of_lt (further (nextPresent ▸ goesOn)) same
      apply (inner.yields (by simp) passed moves.inside).bind
      intro value middle middleMoves middleFurther
      exact finish value middle (Nat.le_of_lt middleFurther) middleMoves.inside

/-- Statements end, since each of them takes a token. -/
theorem ListsStatements.yields_list
    {closing : Token.Kind}
    {list : Nat -> Parser (List NodeId)}
    (lists : ListsStatements stream closing self list)
    {place : Nat}
    (inner : SafeFrom stream stop Excused self (.construct .statement) place)
    (bound : Nat)
    (le : place ≤ before.position)
    (enough : stream.tokens.size - before.position < bound) :
    Yields stop Excused (list bound) before fun _ _ => True := by
  induction bound generalizing before with
  | zero => omega
  | succ bound ih =>
      have ready : before.position < stream.tokens.size := ready_of_le ends inside
      obtain ⟨kind, present⟩ := Ready.exists_kindAt? ready
      by_cases isClosing : kind = closing
      · exact yields_of_eq (lists.closed (isClosing ▸ present)) (.refl inside) trivial
      by_cases isEnd : kind = .endOfFile
      · subst isEnd
        apply yields_congr (lists.unclosed present (Ne.symm isClosing))
        exact yields_reject_misplaced ends fair inside _
      by_cases isSemicolon : kind = .semicolon
      · subst isSemicolon
        have skips : list (bound + 1) before =
            (do discard (advance stream); list bound) before := by
          simp only [lists.skip present, bind, EStateM.bind, discard_semicolon_eq present]
        apply yields_congr skips
        apply (yields_advance ends inside present (by decide)).discard.bind
        intro _ next moves further
        exact ih moves.inside (by omega) (by omega)
      apply yields_congr (lists.more present isClosing isEnd isSemicolon)
      apply (inner.yields (by simp) le inside).bind
      intro statement next moves further
      apply (ih moves.inside (by omega) (by omega)).bind
      intro rest last lastMoves _
      exact yields_pure lastMoves.inside trivial

theorem yields_block
    (inner : SafeFrom stream stop Excused self (.construct .statement) (before.position + 1)) :
    Yields stop Excused (block stream self) before fun _ after =>
      before.position < after.position := by
  apply (yields_expect ends fair inside (by decide)).bind
  intro token opened moves further
  apply (lists_blockStatements.yields_list ends fair moves.inside inner _ further
    (by rw [listBound]; omega)).bind
  intro statements middle middleMoves _
  apply (yields_expect ends fair middleMoves.inside (by decide)).discard.bind
  intro _ closed closedMoves closedFurther
  apply yields_bind_addRun closedMoves.inside statements
  intro start last
  have forward := middleMoves.forward
  have reached : before.position < closed.position := by omega
  exact yields_of_eq (addNode_eq _) ⟨Nat.le_refl _, closedMoves.inside, rfl⟩ reached

omit ends inside fair in
/-- A function body is left as it was entered, also if reading it stops early. -/
theorem yields_withinFunction
    {α : Type}
    {body : Parser α}
    {Reached : Nat -> Prop}
    (yields : Yields stop Excused body (entered before) fun _ after => Reached after.position) :
    Yields stop Excused (withinFunction body) before fun _ after => Reached after.position := by
  unfold Yields at yields ⊢
  match read : body (entered before), yields with
  | .ok value middle, ⟨moves, reached⟩ =>
      rw [withinFunction_eq_leaving (by rw [read]; exact moves.depth), read]
      exact ⟨⟨moves.forward, moves.inside, rfl⟩, reached⟩
  | .error reason middle, ⟨moves, excused⟩ =>
      rw [withinFunction_eq_leaving (by rw [read]; exact moves.depth), read]
      exact ⟨⟨moves.forward, moves.inside, rfl⟩, excused⟩

/-- A declaration of a function is read from any token on. -/
theorem yields_function
    (inner : SafeFrom stream stop Excused self (.construct .block) (before.position + 1)) :
    Yields stop Excused (function stream self) before fun _ after =>
      before.position < after.position := by
  obtain ⟨kind, present⟩ := (ready_of_le ends inside).exists_kindAt?
  apply (yields_advance_any ends inside present).bind
  intro token next moves _
  apply (yields_identifier ends fair moves.inside _).bind
  intro name named namedMoves namedFurther
  apply (yields_expect ends fair namedMoves.inside (by decide)).discard.bind
  intro _ opened openedMoves openedFurther
  apply (lists_parameters.yields_list ends fair openedMoves.inside
    (fun _ _ inside => yields_identifier ends fair inside _) _ (Nat.zero_le _)
    (by rw [listBound]; omega)).bind
  intro parameters read readMoves _
  apply (yields_expect ends fair readMoves.inside (by decide)).discard.bind
  intro _ closed closedMoves closedFurther
  have forward := moves.forward
  have readForward := readMoves.forward
  have reached : before.position < closed.position := by omega
  have entering : before.position + 1 ≤ (entered closed).position := reached
  apply (yields_withinFunction (inner.yields (by simp) entering closedMoves.inside)).bind
  intro body last lastMoves lastFurther
  have written : (withRun last parameters).position ≤ stop := lastMoves.inside
  apply yields_bind_addRun lastMoves.inside parameters
  intro start _
  apply yields_bind_addRun written
  intro header _
  have further : before.position < last.position := Nat.lt_trans reached lastFurther
  exact yields_of_eq (addNode_eq _) ⟨Nat.le_refl _, lastMoves.inside, rfl⟩ further

end Phrases

/-! ## Nested calls -/

section Nesting

variable
  {stream : Stream}
  {stop : Nat}
  {Excused : Stop Diagnostic -> Prop}
  (ends : stream.kindAt? stop = some .endOfFile)
  (fair : ∀ reason, stream.AccountsFor reason -> Excused reason)

/-- Calls at one token are for phrases of falling order. -/
def order : Phrase -> Nat
  | .construct .statement => 3
  | .construct .expression => 2
  | .expr _ => 1
  | .construct _ | .continuation _ _ _ => 0

/-- How deep the calls for a phrase can be nested from a place on. -/
def nesting (stream : Stream) (request : Phrase) (place : Nat) : Nat :=
  4 * (stream.tokens.size - place) + order request

include ends fair

/-- One call more can be nested in each step. -/
theorem safeFrom_phraseStep
    {self : Phrase -> Parser NodeId}
    {depth : Nat}
    (safe : ∀ request place, nesting stream request place < depth ∨ Excused (.fault .endless) ->
      SafeFrom stream stop Excused self request place)
    (request : Phrase)
    (place : Nat)
    (enough : nesting stream request place < depth + 1 ∨ Excused (.fault .endless)) :
    SafeFrom stream stop Excused (phraseStep .standard stream self) request place := by
  intro before le inside
  have ready : before.position < stream.tokens.size := ready_of_le ends inside
  -- A call for a phrase of lower order at the same token, or for any phrase at a later one.
  have same : ∀ other, order other < order request ->
      SafeFrom stream stop Excused self other before.position := by
    intro other lower
    refine safe other _ (enough.imp_left fun enough => ?_)
    unfold nesting at enough ⊢
    omega
  have later : ∀ other, SafeFrom stream stop Excused self other (before.position + 1) := by
    intro other
    refine safe other _ (enough.imp_left fun enough => ?_)
    have low : order other ≤ 3 := by
      unfold order
      split <;> decide
    unfold nesting at enough ⊢
    omega
  by_cases isReturn : request = .construct .return
  · subst isReturn
    exact (yields_returnStatement ends fair inside (later _)).mono
      fun _ _ further goesOn => further (goesOn rfl)
  suffices Yields stop Excused (phraseStep .standard stream self request) before
      fun _ after => before.position < after.position from
    this.mono fun _ _ further _ => further
  match request with
  | .construct .primary => exact yields_primary ends fair inside
  | .construct .operation => exact yields_unaryOperation ends fair inside (later _)
  | .construct .grouping => exact yields_grouping ends fair inside (later _)
  | .construct .expression => exact yields_expression ends inside (same _ (by decide))
  | .construct .statement =>
      refine yields_statement ends fair inside (fun construct kind found => ?_)
        (same _ (by decide))
      apply same
      cases kind <;> cases found <;> decide
  | .construct .binding => exact yields_binding ends fair inside (later _)
  | .construct .block => exact yields_block ends fair inside (later _)
  | .construct .function => exact yields_function ends fair inside (later _)
  | .construct .return => exact absurd rfl isReturn
  | .expr floor =>
      refine yields_expr ends fair inside (fun construct kind found => ?_)
        (fun continuation left power => later _) floor
      apply same
      cases kind <;> cases found <;> exact Nat.zero_lt_one
  | .continuation .operation left power =>
      exact yields_binaryOperation ends fair inside (later _) left
  | .continuation .call left power => exact yields_call ends fair inside (later _) left

/-- Calls that are not nested deep enough for a phrase end too, for want of more. -/
theorem safeFrom_phraseWithin
    (depth : Nat)
    (request : Phrase)
    (place : Nat)
    (enough : nesting stream request place < depth ∨ Excused (.fault .endless)) :
    SafeFrom stream stop Excused (phraseWithin .standard stream depth) request place := by
  induction depth generalizing request place with
  | zero =>
      rcases enough with impossible | excused
      · omega
      · intro before _ inside
        exact yields_throw inside excused
  | succ depth ih =>
      exact safeFrom_phraseStep ends fair ih request place enough

/-- No reading of a phrase is nested too deep. -/
theorem safeFrom_phrase (request : Phrase) :
    SafeFrom stream stop Excused (phrase .standard stream) request 0 := by
  apply safeFrom_phraseWithin ends fair
  have low : order request ≤ 3 := by
    unfold order
    split <;> decide
  rw [nesting, waysPerToken]
  omega

omit ends in
/-- Reading a program ends, at the first end of the file if it succeeds. -/
theorem yields_program (first : stream.EndsFirstAt stop) (closed : stream.Ends) :
    Yields stop Excused (program .standard stream) {} fun _ after => after.position = stop := by
  have ends := first.present
  have rootedReady : Ready stream rooted := closed.nonempty
  apply yields_bind_of_eq (nextId_eq (ready_of_le ends (Nat.zero_le stop)))
  have rooting : Yields stop Excused
      (addNode { tag := .root, token := 0, left := 0, right := 0 }) {} fun id after =>
        id = Tree.root ∧ after = rooted :=
    yields_of_eq (addNode_eq _) ⟨Nat.le_refl _, Nat.zero_le stop, rfl⟩ ⟨rfl, rfl⟩
  apply rooting.bind
  rintro _ _ rootedMoves ⟨rfl, rfl⟩
  apply (lists_programStatements.yields_list ends fair rootedMoves.inside
    (safeFrom_phrase ends fair _) (listBound stream) (Nat.zero_le _)
    (by rw [listBound]; omega)).and_read.bind
  rintro ids middle moves ⟨read, -, -⟩
  -- The root is still there when it gets its statements.
  obtain ⟨statements, built, -, -, ended⟩ :=
    areStatements_of_programStatements closed rootedReady read
  have rootInside : Tree.root < (withRun middle ids).nodes.size :=
    Nat.lt_of_lt_of_le (by decide) built.grown.nodes.size_le
  have reached : middle.position = stop := by
    refine Nat.le_antisymm moves.inside (Nat.le_of_not_lt fun before => ?_)
    exact first.first _ before ended
  apply yields_bind_addRun moves.inside ids
  intro start last
  exact yields_of_eq ((setNode_eq _ _ _).trans (if_pos rootInside))
    ⟨Nat.le_refl _, moves.inside, rfl⟩ reached

end Nesting
end Parser

namespace Stream

/-- A stream that ends has a tree, or a reason why it has none. -/
theorem Ends.exists_tree_or_stop {stream : Stream} (ends : stream.Ends) :
    (∃ tree, stream.tree = .ok tree) ∨
      ∃ reason, stream.tree = .error reason ∧ stream.AccountsFor reason := by
  obtain ⟨stop, endsFirst⟩ := ends.exists_endsFirstAt
  have yields := Parser.yields_program (fun _ accounted => accounted) endsFirst ends
  unfold Parser.Yields at yields
  unfold Stream.tree
  match Parser.program .standard stream {}, yields with
  | .ok _ progress, _ => exact .inl ⟨_, rfl⟩
  | .error reason _, ⟨_, accounted⟩ => exact .inr ⟨reason, rfl, accounted⟩

/-- A stream that ends, with a location for each token, has a tree or a diagnostic of the
grammar, and never a fault. -/
theorem exists_tree_or_diagnostic
    {stream : Stream}
    (ends : stream.Ends)
    (located : stream.HasLocations) :
    (∃ tree, stream.tree = .ok tree) ∨
      ∃ diagnostic, stream.tree = .error (.failed diagnostic) ∧
        diagnostic.cause.stage = .syntactic := by
  rcases ends.exists_tree_or_stop with made | ⟨reason, stopped, accounted⟩
  · exact .inl made
  · obtain ⟨diagnostic, rfl, stage⟩ := located.exists_eq_failed accounted
    exact .inr ⟨diagnostic, stopped, stage⟩

end Stream

end Frontend
