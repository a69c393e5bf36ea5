import Frontend.Proofs.Grammar.Leaves
import Frontend.Proofs.Syntax.Shape

/-!
# Derivations in other streams

A derivation looks only at the tokens of its stretch, and where it leaves out the end of a
statement, at the next one. So it stands in every other stream that has the same kinds of
tokens there.
-/

namespace Frontend
namespace Stream

/-- The token before this place can end a statement. -/
def IsEndable (stream : Stream) (stop : Nat) : Prop :=
  ∃ place kind, place + 1 = stop ∧ stream.kindAt? place = some kind ∧
    kind.endsStatement = true

/-- The last token of an expression can end a statement. -/
theorem IsExpression.isEndable
    {stream : Stream}
    {level : Power}
    {start stop : Nat}
    {expression : Expression TokenId}
    (derived : stream.IsExpression level start stop expression) :
    stream.IsEndable stop := by
  induction derived using IsExpression.inductionOn with
  | identifier present => exact ⟨_, _, rfl, present, rfl⟩
  | literal present isLiteral => exact ⟨_, _, rfl, present, by cases isLiteral <;> rfl⟩
  | group _ _ closed => exact ⟨_, _, rfl, closed, rfl⟩
  | call _ _ _ closed => exact ⟨_, _, rfl, closed, rfl⟩
  | unary _ _ operand => exact operand
  | binary _ _ _ _ _ right => exact right
  | ascend _ _ inner => exact inner

theorem IsName.le
    {stream : Stream}
    {start stop : Nat}
    {name : TokenId}
    (named : stream.IsName start stop name) :
    start ≤ stop := by
  rw [named.2.1]
  exact Nat.le_succ start

theorem AreStatements.append
    {stream : Stream}
    {inFunction : Bool}
    {start middle stop : Nat}
    {statements others : List (Statement TokenId)} :
    stream.AreStatements inFunction start middle statements ->
      stream.AreStatements inFunction middle stop others ->
        stream.AreStatements inFunction start stop (statements ++ others)
  | .none, rest => rest
  | .skip present inner, rest => .skip present (inner.append rest)
  | .more derived inner, rest => .more derived (inner.append rest)

/-- Nothing is ended at a place before which no statement can end. -/
theorem lt_of_settled
    {stream : Stream}
    {middle stop limit : Nat}
    (settled : ¬ stream.IsEndable limit)
    (endable : stream.IsEndable middle)
    (terminates : stream.IsTerminator middle stop)
    (inside : stop ≤ limit) :
    middle < limit := by
  have ordered := Parser.le_of_isTerminator terminates
  refine Nat.lt_of_le_of_ne (Nat.le_trans ordered inside) ?_
  rintro rfl
  exact settled endable

/-- Up to the limit, the tokens of a stream stand in another one, some places further on. -/
structure Carries (stream other : Stream) (shift limit : Nat) : Prop where
  kindAt?_eq : ∀ {place}, place < limit -> other.kindAt? (shift + place) = stream.kindAt? place

namespace Carries

variable
  {stream other : Stream}
  {shift limit start stop : Nat}
  (carries : stream.Carries other shift limit)
  (ends : stream.Ends)

include carries

theorem kindAt?_eq_some
    {place : Nat}
    {kind : Token.Kind}
    (present : stream.kindAt? place = some kind)
    (inside : place < limit) :
    other.kindAt? (shift + place) = some kind := by
  rw [carries.kindAt?_eq inside, present]

theorem areSeparated
    {Item Other : Type}
    {IsItem : Nat -> Nat -> Item -> Prop}
    {IsOther : Nat -> Nat -> Other -> Prop}
    {change : Item -> Other}
    {items : List Item}
    (separated : stream.AreSeparated IsItem start stop items)
    (inside : stop ≤ limit)
    (ordered : ∀ {start stop item}, IsItem start stop item -> start ≤ stop)
    (embed : ∀ {start stop item}, IsItem start stop item -> stop ≤ limit ->
      IsOther (shift + start) (shift + stop) (change item)) :
    other.AreSeparated IsOther (shift + start) (shift + stop) (items.map change) := by
  induction separated with
  | none => exact .none
  | last derived => exact .last (embed derived inside)
  | more derived commaAt rest ih =>
      have below := rest.le ordered
      have later := ih inside
      exact .more (embed derived (by omega)) (carries.kindAt?_eq_some commaAt (by omega)) later

include ends

theorem isExpression
    {level : Power}
    {expression : Expression TokenId}
    (derived : stream.IsExpression level start stop expression)
    (inside : stop ≤ limit) :
    other.IsExpression level (shift + start) (shift + stop) (expression.map (shift + ·)) := by
  induction derived using IsExpression.inductionOn with
  | identifier present =>
      rw [Expression.map]
      exact .identifier (carries.kindAt?_eq_some present inside)
  | literal present isLiteral =>
      rw [Expression.map]
      exact .literal (carries.kindAt?_eq_some present inside) isLiteral
  | group opened derived closed ih =>
      have bounded := derived.bounds ends
      have inner := ih (by omega)
      exact .group (carries.kindAt?_eq_some opened (by omega)) inner
        (carries.kindAt?_eq_some closed (by omega))
  | call calleeDerived opened argumentsDerived closed calleeEmbedded argumentsEmbedded =>
      have ordered := argumentsDerived.le fun derived => Nat.le_of_lt (derived.bounds ends).1
      have arguments := carries.areSeparated argumentsEmbedded (by omega)
        (fun both => Nat.le_of_lt (both.1.bounds ends).1) fun both => both.2
      rw [Expression.map]
      exact .call (calleeEmbedded (by omega)) (carries.kindAt?_eq_some opened (by omega))
        arguments (carries.kindAt?_eq_some closed (by omega))
  | unary present derived ih =>
      have bounded := derived.bounds ends
      have operand := ih inside
      rw [Expression.map]
      exact .unary (carries.kindAt?_eq_some present (by omega)) operand
  | binary leftDerived present above rightDerived leftEmbedded rightEmbedded =>
      have bounded := rightDerived.bounds ends
      have right := rightEmbedded inside
      rw [Expression.map]
      exact .binary (leftEmbedded (by omega)) (carries.kindAt?_eq_some present (by omega)) above
        right
  | ascend above _ ih => exact .ascend above (ih inside)

theorem isWhole
    {whole : Whole TokenId}
    (derived : stream.IsWhole start stop whole)
    (inside : stop ≤ limit) :
    other.IsWhole (shift + start) (shift + stop) (whole.map (shift + ·)) :=
  ⟨congrArg (shift + ·) derived.1, carries.isExpression ends derived.2 inside⟩

omit ends in
theorem isName
    {name : TokenId}
    (named : stream.IsName start stop name)
    (inside : stop ≤ limit) :
    other.IsName (shift + start) (shift + stop) (shift + name) := by
  obtain ⟨rfl, rfl, present⟩ := named
  exact ⟨rfl, rfl, carries.kindAt?_eq_some present inside⟩

omit ends in
/-- Where a terminator is read before the limit, it is read in the other stream too. -/
theorem isTerminator_of_lt
    {middle : Nat}
    (terminates : stream.IsTerminator middle stop)
    (before : middle < limit) :
    other.IsTerminator (shift + middle) (shift + stop) := by
  cases terminates with
  | semicolon present => exact .semicolon (carries.kindAt?_eq_some present before)
  | brace present => exact .brace (carries.kindAt?_eq_some present before)
  | endOfFile present => exact .endOfFile (carries.kindAt?_eq_some present before)

end Carries

/-! ### Phrases that do not move -/

namespace Carries

variable
  {stream other : Stream}
  {limit start stop : Nat}
  (carries : stream.Carries other 0 limit)
  (ends : stream.Ends)

include carries

theorem kindAt?_of_zero
    {place : Nat}
    {kind : Token.Kind}
    (present : stream.kindAt? place = some kind)
    (inside : place < limit) :
    other.kindAt? place = some kind := by
  rw [← Nat.zero_add place]
  exact carries.kindAt?_eq_some present inside

theorem isName_of_zero
    {name : TokenId}
    (named : stream.IsName start stop name)
    (inside : stop ≤ limit) :
    other.IsName start stop name := by
  have carried := carries.isName named inside
  rwa [Nat.zero_add, Nat.zero_add, Nat.zero_add] at carried

theorem areNames_of_zero
    {names : List TokenId}
    (separated : stream.AreSeparated stream.IsName start stop names)
    (inside : stop ≤ limit) :
    other.AreSeparated other.IsName start stop names := by
  have carried := carries.areSeparated separated inside IsName.le carries.isName
  have still : (HAdd.hAdd 0 : TokenId -> TokenId) = id := funext Nat.zero_add
  rwa [Nat.zero_add, Nat.zero_add, still, List.map_id] at carried

include ends

theorem isExpression_of_zero
    {level : Power}
    {expression : Expression TokenId}
    (derived : stream.IsExpression level start stop expression)
    (inside : stop ≤ limit) :
    other.IsExpression level start stop expression := by
  have carried := carries.isExpression ends derived inside
  have still : (fun token : TokenId => 0 + token) = id := funext Nat.zero_add
  rwa [Nat.zero_add, Nat.zero_add, still, Expression.map_id] at carried

theorem isWhole_of_zero
    {whole : Whole TokenId}
    (derived : stream.IsWhole start stop whole)
    (inside : stop ≤ limit) :
    other.IsWhole start stop whole :=
  ⟨derived.1, carries.isExpression_of_zero ends derived.2 inside⟩

end Carries

/-- Up to the limit, the tokens of a stream stand in another one, some places further on,
and what ends a statement ends it there too. -/
structure Embeds (stream other : Stream) (shift limit : Nat) : Prop
    extends stream.Carries other shift limit where
  terminates : ∀ {middle stop}, stream.IsEndable middle -> stream.IsTerminator middle stop ->
    stop ≤ limit -> other.IsTerminator (shift + middle) (shift + stop)

/-- If the last token before the limit does not end a statement, then all terminators are
read before it. -/
theorem Carries.embeds_of_settled
    {stream other : Stream}
    {shift limit : Nat}
    (carries : stream.Carries other shift limit)
    (settled : ¬ stream.IsEndable limit) :
    stream.Embeds other shift limit where
  toCarries := carries
  terminates endable terminates inside :=
    carries.isTerminator_of_lt terminates (lt_of_settled settled endable terminates inside)

/-- Up to a place before the limit, all terminators are read before it. -/
theorem Carries.embeds_of_lt
    {stream other : Stream}
    {shift limit place : Nat}
    (carries : stream.Carries other shift limit)
    (before : place < limit) :
    stream.Embeds other shift place where
  kindAt?_eq inside := carries.kindAt?_eq (Nat.lt_trans inside before)
  terminates := by
    intro middle stop _ terminates inside
    have ordered := Nat.le_trans (Parser.le_of_isTerminator terminates) inside
    exact carries.isTerminator_of_lt terminates (Nat.lt_of_le_of_lt ordered before)

/-- If a closing brace or the end of the file stands at the limit, it ends what another one
has ended there. -/
theorem Carries.embeds_of_closed
    {stream other : Stream}
    {limit : Nat}
    (carries : stream.Carries other 0 limit)
    (closed : other.kindAt? limit = some .closeCurly ∨
      other.kindAt? limit = some .endOfFile) :
    stream.Embeds other 0 limit where
  toCarries := carries
  terminates := by
    intro middle stop _ terminates inside
    have ordered := Parser.le_of_isTerminator terminates
    rcases Nat.lt_or_eq_of_le (Nat.le_trans ordered inside) with before | rfl
    · exact carries.isTerminator_of_lt terminates before
    · obtain rfl : stop = middle := Nat.le_antisymm inside ordered
      rw [Nat.zero_add]
      rcases closed with isBrace | isEnd
      · exact .brace isBrace
      · exact .endOfFile isEnd

namespace Embeds

variable
  {stream other : Stream}
  {shift limit start stop : Nat}
  (embeds : stream.Embeds other shift limit)
  (ends : stream.Ends)

include embeds ends

theorem areStatements
    {inFunction : Bool}
    {statements : List (Statement TokenId)}
    (derived : stream.AreStatements inFunction start stop statements)
    (inside : stop ≤ limit) :
    other.AreStatements inFunction (shift + start) (shift + stop)
      (statements.map (·.map (shift + ·))) := by
  -- Only the end of a statement depends on the token behind the stretch.
  refine @AreStatements.rec stream
    (fun inFunction start stop statement _ => stop ≤ limit ->
      other.IsStatement inFunction (shift + start) (shift + stop) (statement.map (shift + ·)))
    (fun inFunction start stop statements _ => stop ≤ limit ->
      other.AreStatements inFunction (shift + start) (shift + stop)
        (statements.map (·.map (shift + ·))))
    ?binding ?block ?function ?return_ ?returnValue ?evaluate ?assign ?none ?skip ?more
    inFunction start stop statements derived inside
  case binding =>
    intro _ _ start valueStop stop value present named assigned valueDerived ended inside
    have bounded := valueDerived.2.bounds ends
    have before := Nat.le_trans (Parser.le_of_isTerminator ended) inside
    have endedLater := embeds.terminates valueDerived.2.isEndable ended inside
    have valueLater := embeds.isWhole ends valueDerived before
    have presentLater := embeds.kindAt?_eq_some present (by omega)
    have namedLater := embeds.kindAt?_eq_some named (by omega)
    have assignedLater := embeds.kindAt?_eq_some assigned (by omega)
    rw [Statement.map]
    exact .binding presentLater namedLater assignedLater valueLater endedLater
  case block =>
    intro _ start stop statements opened derived closed embedded inside
    have ordered := derived.reads.le
    have later := embedded (by omega)
    rw [Statement.map]
    exact .block (embeds.kindAt?_eq_some opened (by omega)) later
      (embeds.kindAt?_eq_some closed (by omega))
  case function =>
    intro _ start middle stop parameters body present named opened parametersDerived closed
      bodyOpened bodyDerived bodyClosed embedded inside
    have ordered := parametersDerived.le IsName.le
    have bodyOrdered := bodyDerived.reads.le
    have names := embeds.areSeparated parametersDerived (by omega) IsName.le embeds.isName
    rw [Statement.map]
    exact .function (embeds.kindAt?_eq_some present (by omega))
      (embeds.kindAt?_eq_some named (by omega)) (embeds.kindAt?_eq_some opened (by omega)) names
      (embeds.kindAt?_eq_some closed (by omega)) (embeds.kindAt?_eq_some bodyOpened (by omega))
      (embedded (by omega)) (embeds.kindAt?_eq_some bodyClosed inside)
  case return_ =>
    intro start stop present ended inside
    have endable : stream.IsEndable (start + 1) := ⟨start, _, rfl, present, rfl⟩
    have before := Nat.le_trans (Parser.le_of_isTerminator ended) inside
    have endedLater := embeds.terminates endable ended inside
    rw [Statement.map]
    exact .return (embeds.kindAt?_eq_some present (by omega)) endedLater
  case returnValue =>
    intro start valueStop stop value present valueDerived ended inside
    have bounded := valueDerived.2.bounds ends
    have before := Nat.le_trans (Parser.le_of_isTerminator ended) inside
    have endedLater := embeds.terminates valueDerived.2.isEndable ended inside
    rw [Statement.map]
    exact .returnValue (embeds.kindAt?_eq_some present (by omega))
      (embeds.isWhole ends valueDerived before) endedLater
  case evaluate =>
    intro _ start valueStop stop value valueDerived ended inside
    have before := Nat.le_trans (Parser.le_of_isTerminator ended) inside
    have endedLater := embeds.terminates valueDerived.2.isEndable ended inside
    rw [Statement.map]
    exact .evaluate (embeds.isWhole ends valueDerived before) endedLater
  case assign =>
    intro _ start place valueStop stop target value targetDerived assigned valueDerived ended
      inside
    have bounded := valueDerived.2.bounds ends
    have before := Nat.le_trans (Parser.le_of_isTerminator ended) inside
    have endedLater := embeds.terminates valueDerived.2.isEndable ended inside
    rw [Statement.map]
    exact .assign (embeds.isWhole ends targetDerived (by omega))
      (embeds.kindAt?_eq_some assigned (by omega))
      (embeds.isWhole ends valueDerived before) endedLater
  case none => exact fun _ => .none
  case skip =>
    intro _ start stop statements present rest embedded inside
    have ordered := rest.reads.le
    have later := embedded inside
    exact .skip (embeds.kindAt?_eq_some present (by omega)) later
  case more =>
    intro _ start middle stop statement statements derived rest first later inside
    have ordered := rest.reads.le
    exact .more (first (by omega)) (later inside)

omit embeds in
/-- Statements that do not move are derived as they are. -/
theorem areStatements_of_zero
    {inFunction : Bool}
    {statements : List (Statement TokenId)}
    (embeds : stream.Embeds other 0 limit)
    (derived : stream.AreStatements inFunction start stop statements)
    (inside : stop ≤ limit) :
    other.AreStatements inFunction start stop statements := by
  have embedded := embeds.areStatements ends derived inside
  have still : (fun token : TokenId => 0 + token) = id := funext Nat.zero_add
  rwa [Nat.zero_add, Nat.zero_add, still, funext Statement.map_id, List.map_id'] at embedded

end Embeds

end Stream
end Frontend
