import Frontend.Proofs.Grammar.Reading

/-!
# Two readings side by side

Two streams are read by the same parsers. While only places are reached at which their
tokens are alike, the readings make the same progress and end in the same way: with the
same result, or with diagnostics that differ only in the texts they quote.
-/

namespace Frontend

/-! ## What two readings share -/

/-- What two readings have in common. -/
structure Comparison where
  /-- The places at which both readings see the same. -/
  Inside : Nat -> Prop
  /-- A text that the first reading quotes, and the one that the other quotes for it. -/
  Quotes : String -> String -> Prop
  /-- Nothing is said of the other reading where the first one meets this fault at this
  place. -/
  Ignores : Fault -> Nat -> Prop
  /-- A reading that has left these places does not come back. -/
  downward {place later : Nat} : place ≤ later -> Inside later -> Inside place

/-- Causes of one sort that quote corresponding texts. -/
inductive Diagnostic.Cause.Alike
    (Quotes : String -> String -> Prop) :
    Diagnostic.Cause -> Diagnostic.Cause -> Prop
  | unexpected
      {text twin : String}
      (quotes : Quotes text twin) :
      Alike Quotes (.unexpected text) (.unexpected twin)
  | misplaced
      {text twin : String}
      (quotes : Quotes text twin)
      (reason : String) :
      Alike Quotes (.misplaced text reason) (.misplaced twin reason)
  | badNumeral
      {text twin : String}
      (quotes : Quotes text twin) :
      Alike Quotes (.badNumeral text) (.badNumeral twin)

/-- Diagnostics at one place that differ only in what they quote. -/
structure Diagnostic.Alike
    (Quotes : String -> String -> Prop)
    (diagnostic twin : Diagnostic) : Prop where
  cause : diagnostic.cause.Alike Quotes twin.cause
  location : diagnostic.location = twin.location

/-- The same fault, or diagnostics that are alike. -/
inductive Stop.Alike
    (Quotes : String -> String -> Prop) :
    Stop Diagnostic -> Stop Diagnostic -> Prop
  | failed
      {diagnostic twin : Diagnostic}
      (alike : diagnostic.Alike Quotes twin) :
      Alike Quotes (.failed diagnostic) (.failed twin)
  | fault (fault : Fault) : Alike Quotes (.fault fault) (.fault fault)

/-- Tokens that no parser tells apart, but for the text that it quotes and the place where
it stands. -/
structure Token.Alike
    (Quotes : String -> String -> Prop)
    (token twin : Token) : Prop where
  kind : token.kind = twin.kind
  hasValue : Parser.hasValue token = Parser.hasValue twin
  quotes : Quotes token.value twin.value

/-- The index of the token that is seen from a place. Behind the last token, that one is
seen. -/
def Stream.ahead (stream : Stream) (place : Nat) : TokenId :=
  min place (stream.tokens.size - 1)

theorem Stream.ahead_lt
    (stream : Stream)
    (nonempty : 0 < stream.tokens.size)
    (place : Nat) :
    stream.ahead place < stream.tokens.size :=
  Nat.lt_of_le_of_lt (Nat.min_le_right _ _) (Nat.sub_one_lt_of_lt nonempty)

namespace Comparison

variable (comparison : Comparison)

/-- A bound of the other reading. Only if it is ignored that a reading is given up may it be
larger than that of the first one, which is then given up earlier. -/
def Covers (bound larger : Nat) : Prop :=
  bound = larger ∨ (bound ≤ larger ∧ ∀ place, comparison.Ignores .endless place)

/-- Both readings find the same location for a token, unless the first one meets a fault
there that is ignored. -/
def Locates (place : Nat) (found twin : Except Fault Location) : Prop :=
  found = twin ∨ ∃ fault, found = .error fault ∧ comparison.Ignores fault place

/-- The tokens of two streams are alike at the places of a comparison. -/
structure Fits (stream other : Stream) : Prop where
  nonempty : 0 < stream.tokens.size
  covers : comparison.Covers stream.tokens.size other.tokens.size
  exists_twin : ∀ token ∈ stream.tokens,
    ∃ twin, token.Alike comparison.Quotes twin
  alike : ∀ place, comparison.Inside place ->
    other.ahead place = stream.ahead place ∧
      ∃ token twin,
        stream.tokens[stream.ahead place]? = some token ∧
          other.tokens[stream.ahead place]? = some twin ∧
          token.Alike comparison.Quotes twin ∧
          comparison.Locates place (stream.source.locate token.span.start)
            (other.source.locate twin.span.start)

/-- Both readings end with the same progress and in the same way, or with a fault that is
ignored. -/
inductive Same
    {α β : Type}
    (Pairs : α -> β -> Prop) :
    EStateM.Result (Stop Diagnostic) Progress α ->
      EStateM.Result (Stop Diagnostic) Progress β -> Prop
  | ok
      {value : α}
      {twin : β}
      (pairs : Pairs value twin)
      (after : Progress) :
      Same Pairs (.ok value after) (.ok twin after)
  | error
      {stop twin : Stop Diagnostic}
      (alike : stop.Alike comparison.Quotes twin)
      (after : Progress) :
      Same Pairs (.error stop after) (.error twin after)
  | fault
      {fault : Fault}
      {after : Progress}
      (ignored : comparison.Ignores fault after.position)
      (result : EStateM.Result (Stop Diagnostic) Progress β) :
      Same Pairs (.error (.fault fault) after) result

open Frontend.Parser

/-- From this progress, the second parser does what the first one does, unless that one
leaves the places of the comparison. A result of the first one always has a
counterpart, and as many functions are open as before. -/
structure MirrorsAt
    (comparison : Comparison)
    {α β : Type}
    (Pairs : α -> β -> Prop)
    (parser : Parser α)
    (twin : Parser β)
    (before : Progress) : Prop where
  moves : before.position ≤ (reached (parser before)).position
  depth : (reached (parser before)).depth = before.depth
  paired : ∀ value after, parser before = .ok value after -> ∃ other, Pairs value other
  same : comparison.Inside (reached (parser before)).position ->
    comparison.Same Pairs (parser before) (twin before)

/-- The second parser does what the first one does, at all places of the comparison. -/
def Mirrors
    (comparison : Comparison)
    {α β : Type}
    (Pairs : α -> β -> Prop)
    (parser : Parser α)
    (twin : Parser β) : Prop :=
  ∀ before, comparison.MirrorsAt Pairs parser twin before

section Rules

variable
  {comparison : Comparison}
  {α β γ δ : Type}
  {Pairs : α -> β -> Prop}
  {Later : γ -> δ -> Prop}

theorem mirrors_pure
    {value : α}
    {twin : β}
    (pairs : Pairs value twin) :
    comparison.Mirrors Pairs (pure value) (pure twin) := by
  refine fun before => ⟨Nat.le_refl _, rfl, ?_, fun _ => .ok pairs before⟩
  rintro _ _ ⟨⟩
  exact ⟨twin, pairs⟩

theorem mirrors_throw
    {stop twin : Stop Diagnostic}
    (alike : stop.Alike comparison.Quotes twin) :
    comparison.Mirrors Pairs (throw stop) (throw twin) := by
  refine fun before => ⟨Nat.le_refl _, rfl, ?_, fun _ => .error alike before⟩
  rintro _ _ ⟨⟩

theorem mirrors_reject
    {diagnostic twin : Diagnostic}
    (alike : diagnostic.Alike comparison.Quotes twin) :
    comparison.Mirrors Pairs (reject diagnostic) (reject twin) :=
  mirrors_throw (.failed alike)

/-- What follows a parser goes on at the place that both readings have reached. -/
theorem MirrorsAt.bind
    {first : Parser α}
    {firstTwin : Parser β}
    {next : α -> Parser γ}
    {nextTwin : β -> Parser δ}
    {before : Progress}
    (mirrors : comparison.MirrorsAt Pairs first firstTwin before)
    (goesOn : ∀ value middle twin, first before = .ok value middle -> Pairs value twin ->
      comparison.MirrorsAt Later (next value) (nextTwin twin) middle) :
    comparison.MirrorsAt Later (first >>= next) (firstTwin >>= nextTwin) before := by
  obtain ⟨moves, depth, paired, same⟩ := mirrors
  change comparison.MirrorsAt Later (EStateM.bind first next)
    (EStateM.bind firstTwin nextTwin) before
  cases read : first before with
  | error stop after =>
      rw [read] at moves depth same
      refine ⟨?_, ?_, ?_, ?_⟩ <;> simp only [EStateM.bind, read]
      · exact moves
      · exact depth
      · rintro _ _ ⟨⟩
      · intro inside
        cases twinRead : firstTwin before <;> rw [twinRead] at same <;> cases same inside
        case error.error alike => exact .error alike after
        all_goals exact .fault ‹_› _
  | ok value middle =>
      rw [read] at moves depth same
      obtain ⟨twin, pairs⟩ := paired value middle read
      have later := goesOn value middle twin read pairs
      refine ⟨?_, ?_, ?_, ?_⟩ <;> simp only [EStateM.bind, read]
      · exact Nat.le_trans moves later.moves
      · exact later.depth.trans depth
      · exact later.paired
      · intro inside
        -- What follows only moves on, so the place in between is one of the comparison.
        have reachedInside : comparison.Inside middle.position :=
          comparison.downward later.moves inside
        cases twinRead : firstTwin before <;> rw [twinRead] at same <;>
          cases same reachedInside
        case ok pairs => exact (goesOn _ _ _ read pairs).same inside

theorem Mirrors.bind
    {first : Parser α}
    {firstTwin : Parser β}
    {next : α -> Parser γ}
    {nextTwin : β -> Parser δ}
    (mirrors : comparison.Mirrors Pairs first firstTwin)
    (goesOn : ∀ value twin, Pairs value twin ->
      comparison.Mirrors Later (next value) (nextTwin twin)) :
    comparison.Mirrors Later (first >>= next) (firstTwin >>= nextTwin) :=
  fun before => (mirrors before).bind fun value middle twin _ pairs =>
    goesOn value twin pairs middle

/-- What follows a parser whose results are the same in both readings. -/
theorem Mirrors.bindEq
    {first firstTwin : Parser α}
    {next : α -> Parser γ}
    {nextTwin : α -> Parser δ}
    (mirrors : comparison.Mirrors Eq first firstTwin)
    (goesOn : ∀ value, comparison.Mirrors Later (next value) (nextTwin value)) :
    comparison.Mirrors Later (first >>= next) (firstTwin >>= nextTwin) := by
  apply mirrors.bind
  rintro value _ rfl
  exact goesOn value

theorem Mirrors.discard
    {parser twin : Parser α}
    (mirrors : comparison.Mirrors Eq parser twin) :
    comparison.Mirrors Eq (discard parser) (discard twin) :=
  mirrors.bindEq fun _ => mirrors_pure rfl

/-- A parser that looks at no token mirrors itself. -/
theorem mirrors_self
    {parser : Parser α}
    (moves : ∀ before, before.position ≤ (reached (parser before)).position)
    (depth : ∀ before, (reached (parser before)).depth = before.depth)
    (unfailing : ∀ before diagnostic after,
      parser before ≠ .error (.failed diagnostic) after) :
    comparison.Mirrors Eq parser parser := by
  refine fun before => ⟨moves before, depth before, fun value _ _ => ⟨value, rfl⟩, fun _ => ?_⟩
  match read : parser before with
  | .ok value after => exact .ok rfl after
  | .error (.fault fault) after => exact .error (.fault fault) after
  | .error (.failed diagnostic) after => exact absurd read (unfailing before diagnostic after)

theorem mirrors_addNode (node : Node) :
    comparison.Mirrors Eq (addNode node) (addNode node) :=
  mirrors_self (fun _ => Nat.le_refl _) (fun _ => rfl) nofun

theorem mirrors_addRun (words : List Nat) :
    comparison.Mirrors Eq (addRun words) (addRun words) :=
  mirrors_self (fun _ => Nat.le_refl _) (fun _ => rfl) nofun

theorem mirrors_inFunction :
    comparison.Mirrors Eq inFunction inFunction :=
  mirrors_self (fun _ => Nat.le_refl _) (fun _ => rfl) nofun

theorem mirrors_setNode (id : NodeId) (node : Node) :
    comparison.Mirrors Eq (setNode id node) (setNode id node) := by
  apply mirrors_self
  · intro before
    rw [setNode_eq]
    split <;> exact Nat.le_refl _
  · intro before
    rw [setNode_eq]
    split <;> rfl
  · intro before diagnostic after
    rw [setNode_eq]
    split <;> nofun

theorem Mirrors.withinFunction
    {body twin : Parser α}
    (mirrors : comparison.Mirrors Eq body twin) :
    comparison.Mirrors Eq (withinFunction body) (withinFunction twin) := by
  intro before
  obtain ⟨moves, opened, -, same⟩ := mirrors (entered before)
  have stays : (reached (body.withinFunction before)).position =
      (reached (body (entered before))).position := by
    rw [withinFunction_eq_leaving opened]
    cases body (entered before) <;> rfl
  refine ⟨?_, ?_, fun value _ _ => ⟨value, rfl⟩, ?_⟩
  · rw [stays]
    exact moves
  · rw [withinFunction_eq_leaving opened]
    cases body (entered before) <;> rfl
  · rw [stays]
    intro inside
    have compared := same inside
    rw [withinFunction_eq_leaving opened]
    cases twinRead : twin (entered before) <;> cases read : body (entered before) <;>
      rw [read, twinRead] at compared <;> rw [read] at opened <;> cases compared
    case ok.ok pairs =>
      rw [withinFunction_eq_leaving (by rw [twinRead]; exact opened), twinRead]
      exact .ok pairs _
    case error.error.error alike =>
      rw [withinFunction_eq_leaving (by rw [twinRead]; exact opened), twinRead]
      exact .error alike _
    all_goals exact .fault ‹_› _

namespace Covers

variable {bound larger : Nat}

theorem add_one (covers : comparison.Covers bound larger) :
    comparison.Covers (bound + 1) (larger + 1) := by
  rcases covers with rfl | ⟨le, ignored⟩
  · exact .inl rfl
  · exact .inr ⟨Nat.succ_le_succ le, ignored⟩

theorem mul_left (covers : comparison.Covers bound larger) (factor : Nat) :
    comparison.Covers (factor * bound) (factor * larger) := by
  rcases covers with rfl | ⟨le, ignored⟩
  · exact .inl rfl
  · exact .inr ⟨Nat.mul_le_mul_left factor le, ignored⟩

theorem exists_add_one (covers : comparison.Covers (bound + 1) larger) :
    ∃ smaller, larger = smaller + 1 ∧ comparison.Covers bound smaller := by
  rcases covers with rfl | ⟨le, ignored⟩
  · exact ⟨bound, rfl, .inl rfl⟩
  · obtain ⟨smaller, rfl⟩ := Nat.exists_eq_succ_of_ne_zero (Nat.ne_zero_of_lt le)
    exact ⟨smaller, rfl, .inr ⟨Nat.le_of_succ_le_succ le, ignored⟩⟩

/-- A reading that may not go on at all is given up, and so is the other one if it has the
same bound. -/
theorem mirrors_endless
    (covers : comparison.Covers 0 larger)
    {twin : Parser β}
    (givesUp : larger = 0 -> twin = endless) :
    comparison.Mirrors Pairs endless twin := by
  rcases covers with same | ⟨-, ignored⟩
  · rw [givesUp same.symm]
    exact mirrors_throw (.fault .endless)
  · refine fun before => ⟨Nat.le_refl _, rfl, ?_, fun _ => .fault (ignored before.position) _⟩
    rintro _ _ ⟨⟩

end Covers

end Rules

/-! ## Reading tokens -/

section Reading

variable
  {comparison : Comparison}
  {stream other : Stream}
  (fits : comparison.Fits stream other)

theorem nextId_eq_ahead
    {stream : Stream}
    (nonempty : 0 < stream.tokens.size)
    (before : Progress) :
    nextId stream before = .ok (stream.ahead before.position) before := by
  have notEmpty : stream.tokens.isEmpty = false := by
    rw [Array.isEmpty_eq_false_iff]
    rintro empty
    simp [empty] at nonempty
  simp only [nextId, notEmpty, Bool.false_eq_true, if_false]
  rfl

theorem next_eq_ahead
    {stream : Stream}
    {before : Progress}
    {token : Token}
    (present : stream.tokens[stream.ahead before.position]? = some token) :
    next stream before = .ok token before := by
  have nonempty : 0 < stream.tokens.size :=
    Nat.zero_lt_of_lt (Array.getElem?_eq_some_iff.mp present).1
  simp only [next, bind, EStateM.bind, nextId_eq_ahead nonempty, present]
  rfl

theorem advance_eq_ahead
    {stream : Stream}
    {before : Progress}
    {token : Token}
    (present : stream.tokens[stream.ahead before.position]? = some token) :
    advance stream before =
      .ok (stream.ahead before.position)
        (if token.kind = .endOfFile then before else advanced before) := by
  have nonempty : 0 < stream.tokens.size :=
    Nat.zero_lt_of_lt (Array.getElem?_eq_some_iff.mp present).1
  simp only [advance, nextKind, bind, EStateM.bind, nextId_eq_ahead nonempty,
    next_eq_ahead present, pure, EStateM.pure]
  by_cases ended : token.kind = .endOfFile
  · simp only [ended, ne_eq, not_true_eq_false, if_true, if_false]
    rfl
  · simp only [ended, ne_eq, not_false_eq_true, if_true, if_false]
    rfl

/-- A token is read by going on to the next one, or not at all. -/
theorem of_advance_eq_ok
    {stream : Stream}
    (nonempty : 0 < stream.tokens.size)
    {before after : Progress}
    {id : TokenId}
    (read : advance stream before = .ok id after) :
    id = stream.ahead before.position ∧ before.position ≤ after.position := by
  rw [advance_eq_ahead (Array.getElem?_eq_getElem (stream.ahead_lt nonempty _))] at read
  cases read
  refine ⟨rfl, ?_⟩
  split
  · exact Nat.le_refl _
  · exact Nat.le_succ _

include fits

theorem Fits.mirrors_nextId :
    comparison.Mirrors Eq (nextId stream) (nextId other) := by
  intro before
  have otherNonempty : 0 < other.tokens.size := by
    rcases fits.covers with same | ⟨le, -⟩
    · exact same ▸ fits.nonempty
    · exact Nat.lt_of_lt_of_le fits.nonempty le
  refine ⟨?_, ?_, fun value _ _ => ⟨value, rfl⟩, ?_⟩ <;>
    rw [nextId_eq_ahead fits.nonempty]
  · exact Nat.le_refl _
  · rfl
  · intro inside
    rw [nextId_eq_ahead otherNonempty, (fits.alike before.position inside).1]
    exact .ok rfl before

theorem Fits.mirrors_next :
    comparison.Mirrors (Token.Alike comparison.Quotes) (next stream) (next other) := by
  intro before
  have below := stream.ahead_lt fits.nonempty before.position
  have read := next_eq_ahead (Array.getElem?_eq_getElem below)
  refine ⟨?_, ?_, ?_, ?_⟩ <;> rw [read]
  · exact Nat.le_refl _
  · rfl
  · rintro _ _ ⟨⟩
    exact fits.exists_twin _ (Array.getElem_mem below)
  · intro inside
    obtain ⟨sameId, token, twin, present, twinPresent, alike, -⟩ :=
      fits.alike before.position inside
    rw [← sameId] at twinPresent
    rw [Array.getElem?_eq_getElem below, Option.some.injEq] at present
    rw [next_eq_ahead twinPresent, present]
    exact .ok alike before

/-- A token that was seen before can be looked up. -/
theorem Fits.mirrorsAt_token
    {id : TokenId}
    {place : Nat}
    (seen : id = stream.ahead place)
    {before : Progress}
    (passed : place ≤ before.position) :
    comparison.MirrorsAt (Token.Alike comparison.Quotes) (Parser.token stream id)
      (Parser.token other id) before := by
  have below : id < stream.tokens.size := seen ▸ stream.ahead_lt fits.nonempty place
  have read : Parser.token stream id before = .ok stream.tokens[id] before := by
    simp only [Parser.token, Array.getElem?_eq_getElem below]
    rfl
  refine ⟨?_, ?_, ?_, ?_⟩ <;> rw [read]
  · exact Nat.le_refl _
  · rfl
  · rintro _ _ ⟨⟩
    exact fits.exists_twin _ (Array.getElem_mem below)
  · intro inside
    obtain ⟨-, token, twin, present, twinPresent, alike, -⟩ :=
      fits.alike place (comparison.downward passed inside)
    rw [← seen] at present twinPresent
    rw [Array.getElem?_eq_getElem below, Option.some.injEq] at present
    have twinRead : Parser.token other id before = .ok twin before := by
      simp only [Parser.token, twinPresent]
      rfl
    rw [twinRead, present]
    exact .ok alike before

theorem Fits.mirrors_nextKind :
    comparison.Mirrors Eq (nextKind stream) (nextKind other) :=
  fits.mirrors_next.bind fun _ _ alike => mirrors_pure alike.kind

theorem Fits.mirrors_location :
    comparison.Mirrors Eq (location stream) (location other) := by
  intro before
  have below := stream.ahead_lt fits.nonempty before.position
  have read := next_eq_ahead (Array.getElem?_eq_getElem below)
  have stays : reached (location stream before) = before := by
    simp only [location, bind, EStateM.bind, read]
    cases stream.source.locate stream.tokens[stream.ahead before.position].span.start <;> rfl
  refine ⟨Nat.le_of_eq (by rw [stays]), by rw [stays], fun value _ _ => ⟨value, rfl⟩, ?_⟩
  rw [stays]
  intro inside
  obtain ⟨sameId, token, twin, present, twinPresent, -, locates⟩ :=
    fits.alike before.position inside
  rw [← sameId] at twinPresent
  simp only [location, bind, EStateM.bind, next_eq_ahead present, next_eq_ahead twinPresent]
  rcases locates with same | ⟨fault, found, ignored⟩
  · rw [same]
    cases other.source.locate twin.span.start with
    | ok location => exact .ok rfl before
    | error fault => exact .error (.fault fault) before
  · rw [found]
    exact .fault ignored _

theorem Fits.mirrors_unexpected :
    comparison.Mirrors (Diagnostic.Alike comparison.Quotes) (unexpected stream)
      (unexpected other) := by
  apply fits.mirrors_next.bind
  intro token twin alike
  apply fits.mirrors_location.bindEq
  intro location
  exact mirrors_pure ⟨.unexpected alike.quotes, rfl⟩

theorem Fits.mirrors_misplaced (reason : String) :
    comparison.Mirrors (Diagnostic.Alike comparison.Quotes) (misplaced stream reason)
      (misplaced other reason) := by
  apply fits.mirrors_next.bind
  intro token twin alike
  apply fits.mirrors_location.bindEq
  intro location
  exact mirrors_pure ⟨.misplaced alike.quotes reason, rfl⟩

theorem Fits.mirrors_reject_unexpected {α : Type} :
    comparison.Mirrors (@Eq α) (do reject (<- unexpected stream))
      (do reject (<- unexpected other)) :=
  fits.mirrors_unexpected.bind fun _ _ alike => mirrors_reject alike

theorem Fits.mirrors_reject_misplaced {α : Type} (reason : String) :
    comparison.Mirrors (@Eq α) (do reject (<- misplaced stream reason))
      (do reject (<- misplaced other reason)) :=
  (fits.mirrors_misplaced reason).bind fun _ _ alike => mirrors_reject alike

theorem Fits.mirrors_advance :
    comparison.Mirrors Eq (advance stream) (advance other) := by
  apply fits.mirrors_nextId.bindEq
  intro id
  apply fits.mirrors_nextKind.bindEq
  intro kind
  split
  next =>
    refine Mirrors.bindEq (mirrors_self (fun before => Nat.le_succ before.position)
      (fun _ => rfl) nofun) fun _ => mirrors_pure rfl
  next => exact mirrors_pure rfl

theorem Fits.mirrors_expectOr
    (kind : Token.Kind)
    {diagnostic twin : Diagnostic}
    (alike : diagnostic.Alike comparison.Quotes twin) :
    comparison.Mirrors Eq (expectOr stream kind diagnostic) (expectOr other kind twin) := by
  apply fits.mirrors_nextKind.bindEq
  intro found
  split
  · exact fits.mirrors_advance
  · exact mirrors_reject alike

theorem Fits.mirrors_expect (kind : Token.Kind) :
    comparison.Mirrors Eq (expect stream kind) (expect other kind) := by
  apply fits.mirrors_nextKind.bindEq
  intro found
  split
  · exact fits.mirrors_advance
  · exact fits.mirrors_reject_unexpected

theorem Fits.mirrors_terminator :
    comparison.Mirrors Eq (terminator stream) (terminator other) := by
  apply fits.mirrors_nextKind.bindEq
  intro kind
  split
  · exact fits.mirrors_advance.discard
  · exact mirrors_pure rfl
  · exact mirrors_pure rfl
  · exact fits.mirrors_reject_misplaced _

theorem Fits.mirrors_primary :
    comparison.Mirrors Eq (primary stream) (primary other) := by
  apply fits.mirrors_next.bind
  intro token twin alike
  rw [alike.kind, alike.hasValue]
  split
  next => exact fits.mirrors_reject_unexpected
  next tag _ =>
    split
    next =>
      apply fits.mirrors_location.bindEq
      intro location
      exact mirrors_reject ⟨.badNumeral alike.quotes, rfl⟩
    next =>
      apply fits.mirrors_advance.bindEq
      intro id
      exact mirrors_addNode _

theorem Fits.mirrors_identifier (reason : String) :
    comparison.Mirrors Eq (identifier stream reason) (identifier other reason) := by
  apply (fits.mirrors_misplaced reason).bind
  intro diagnostic twin alike
  apply (fits.mirrors_expectOr _ alike).bindEq
  intro id
  exact mirrors_addNode _

theorem Fits.mirrors_separator (reason : String) :
    comparison.Mirrors Eq (separator stream reason) (separator other reason) := by
  apply fits.mirrors_nextKind.bindEq
  intro kind
  split
  · exact fits.mirrors_advance.discard
  · exact mirrors_pure rfl
  · exact fits.mirrors_reject_misplaced reason

theorem Fits.mirrors_parameters
    {bound larger : Nat}
    (covers : comparison.Covers bound larger) :
    comparison.Mirrors Eq (parameters stream bound) (parameters other larger) := by
  induction bound generalizing larger with
  | zero => exact covers.mirrors_endless (by rintro rfl; rfl)
  | succ bound ih =>
      obtain ⟨larger, rfl, further⟩ := covers.exists_add_one
      apply fits.mirrors_nextKind.bindEq
      intro kind
      split
      next => exact mirrors_pure rfl
      next =>
        apply (fits.mirrors_identifier _).bindEq
        intro parameter
        apply (fits.mirrors_separator _).bindEq
        intro _
        exact (ih further).bindEq fun rest => mirrors_pure rfl

theorem Fits.covers_listBound :
    comparison.Covers (listBound stream) (listBound other) :=
  fits.covers.add_one

end Reading

/-! ## Reading phrases -/

section Phrases

variable
  {comparison : Comparison}
  {stream other : Stream}
  (fits : comparison.Fits stream other)
  (grammar : Grammar)
  {self twin : Phrase -> Parser NodeId}
  (mirrors : ∀ request, comparison.Mirrors Eq (self request) (twin request))

include fits mirrors

theorem Fits.mirrors_continuations
    (floor : Power)
    {bound larger : Nat}
    (covers : comparison.Covers bound larger)
    (left : NodeId) :
    comparison.Mirrors Eq (continuations grammar stream self floor bound left)
      (continuations grammar other twin floor larger left) := by
  induction bound generalizing larger left with
  | zero => exact covers.mirrors_endless (by rintro rfl; rfl)
  | succ bound ih =>
      obtain ⟨larger, rfl, further⟩ := covers.exists_add_one
      apply fits.mirrors_nextKind.bindEq
      intro kind
      split
      next => exact mirrors_pure rfl
      next power continuation _ =>
        split
        next => exact mirrors_pure rfl
        next => exact (mirrors _).bindEq fun left => ih further left

theorem Fits.mirrors_expr (floor : Power) :
    comparison.Mirrors Eq (expr grammar stream self floor) (expr grammar other twin floor) := by
  apply fits.mirrors_nextKind.bindEq
  intro kind
  split
  next => exact fits.mirrors_reject_unexpected
  next construct _ =>
    apply (mirrors _).bindEq
    intro left
    exact fits.mirrors_continuations grammar mirrors floor fits.covers_listBound left

theorem Fits.mirrors_expression :
    comparison.Mirrors Eq (expression stream self) (expression other twin) := by
  apply fits.mirrors_nextId.bindEq
  intro start
  apply (mirrors _).bindEq
  intro inner
  exact mirrors_addNode _

theorem Fits.mirrors_unaryOperation :
    comparison.Mirrors Eq (unaryOperation stream self) (unaryOperation other twin) := by
  apply fits.mirrors_nextKind.bindEq
  intro kind
  split
  next => exact fits.mirrors_reject_unexpected
  next operator _ =>
    apply fits.mirrors_advance.bindEq
    intro token
    apply (mirrors _).bindEq
    intro operand
    exact mirrors_addNode _

theorem Fits.mirrors_grouping :
    comparison.Mirrors Eq (grouping stream self) (grouping other twin) := by
  apply (fits.mirrors_expect _).discard.bindEq
  intro _
  apply (mirrors _).bindEq
  intro inner
  apply (fits.mirrors_expect _).discard.bindEq
  intro _
  exact mirrors_pure rfl

theorem Fits.mirrors_arguments
    {bound larger : Nat}
    (covers : comparison.Covers bound larger) :
    comparison.Mirrors Eq (arguments stream self bound) (arguments other twin larger) := by
  induction bound generalizing larger with
  | zero => exact covers.mirrors_endless (by rintro rfl; rfl)
  | succ bound ih =>
      obtain ⟨larger, rfl, further⟩ := covers.exists_add_one
      apply fits.mirrors_nextKind.bindEq
      intro kind
      split
      next => exact mirrors_pure rfl
      next =>
        apply (mirrors _).bindEq
        intro argument
        apply (fits.mirrors_separator _).bindEq
        intro _
        exact (ih further).bindEq fun rest => mirrors_pure rfl

theorem Fits.mirrors_call (callee : NodeId) :
    comparison.Mirrors Eq (call stream self callee) (call other twin callee) := by
  apply (fits.mirrors_expect _).bindEq
  intro token
  apply (fits.mirrors_arguments mirrors fits.covers_listBound).bindEq
  intro arguments
  apply (fits.mirrors_expect _).discard.bindEq
  intro _
  apply (mirrors_addRun _).bindEq
  intro run
  apply (mirrors_addRun _).bindEq
  intro header
  exact mirrors_addNode _

theorem Fits.mirrors_statement :
    comparison.Mirrors Eq (statement grammar stream self) (statement grammar other twin) := by
  apply fits.mirrors_nextKind.bindEq
  intro kind
  split
  next construct _ => exact mirrors _
  next =>
    apply fits.mirrors_nextId.bindEq
    intro start
    apply (mirrors _).bindEq
    intro target
    apply fits.mirrors_nextKind.bindEq
    intro following
    split
    next =>
      apply fits.mirrors_advance.bindEq
      intro token
      apply (mirrors _).bindEq
      intro value
      exact fits.mirrors_terminator.bindEq fun _ => mirrors_addNode _
    next => exact fits.mirrors_terminator.bindEq fun _ => mirrors_addNode _

theorem Fits.mirrors_binding :
    comparison.Mirrors Eq (binding stream self) (binding other twin) := by
  apply fits.mirrors_nextKind.bindEq
  intro kind
  apply fits.mirrors_advance.bindEq
  intro token
  apply (fits.mirrors_identifier _).bindEq
  intro name
  apply (fits.mirrors_misplaced _).bind
  intro diagnostic diagnosticTwin alike
  apply (fits.mirrors_expectOr _ alike).discard.bindEq
  intro _
  apply (mirrors _).bindEq
  intro value
  exact fits.mirrors_terminator.bindEq fun _ => mirrors_addNode _

theorem Fits.mirrors_blockStatements
    {bound larger : Nat}
    (covers : comparison.Covers bound larger) :
    comparison.Mirrors Eq (blockStatements stream self bound)
      (blockStatements other twin larger) := by
  induction bound generalizing larger with
  | zero => exact covers.mirrors_endless (by rintro rfl; rfl)
  | succ bound ih =>
      obtain ⟨larger, rfl, further⟩ := covers.exists_add_one
      apply fits.mirrors_nextKind.bindEq
      intro kind
      split
      · exact mirrors_pure rfl
      · exact fits.mirrors_reject_misplaced _
      · exact fits.mirrors_advance.discard.bindEq fun _ => ih further
      · apply (mirrors _).bindEq
        intro statement
        exact (ih further).bindEq fun rest => mirrors_pure rfl

theorem Fits.mirrors_block :
    comparison.Mirrors Eq (block stream self) (block other twin) := by
  apply (fits.mirrors_expect _).bindEq
  intro token
  apply (fits.mirrors_blockStatements mirrors fits.covers_listBound).bindEq
  intro statements
  apply (fits.mirrors_expect _).discard.bindEq
  intro _
  apply (mirrors_addRun _).bindEq
  intro run
  exact mirrors_addNode _

theorem Fits.mirrors_function :
    comparison.Mirrors Eq (function stream self) (function other twin) := by
  apply fits.mirrors_advance.bindEq
  intro token
  apply (fits.mirrors_identifier _).bindEq
  intro name
  apply (fits.mirrors_expect _).discard.bindEq
  intro _
  apply (fits.mirrors_parameters fits.covers_listBound).bindEq
  intro parameters
  apply (fits.mirrors_expect _).discard.bindEq
  intro _
  apply (mirrors _).withinFunction.bindEq
  intro body
  apply (mirrors_addRun _).bindEq
  intro run
  apply (mirrors_addRun _).bindEq
  intro header
  exact mirrors_addNode _

theorem Fits.mirrors_returnStatement :
    comparison.Mirrors Eq (returnStatement stream self) (returnStatement other twin) := by
  apply mirrors_inFunction.bindEq
  intro inside
  split
  next => exact (fits.mirrors_misplaced _).bind fun _ _ alike => mirrors_reject alike
  next =>
    apply fits.mirrors_advance.bindEq
    intro token
    apply fits.mirrors_nextKind.bindEq
    intro kind
    split
    case _ => exact fits.mirrors_terminator.bindEq fun _ => mirrors_addNode _
    case _ => exact fits.mirrors_terminator.bindEq fun _ => mirrors_addNode _
    case _ => exact fits.mirrors_terminator.bindEq fun _ => mirrors_addNode _
    case _ =>
      apply (mirrors _).bindEq
      intro value
      exact fits.mirrors_terminator.bindEq fun _ => mirrors_addNode _

/-- A token that is no operator is looked up once more. It is one that was seen before. -/
theorem Fits.mirrors_binaryOperation (left : NodeId) (power : Power) :
    comparison.Mirrors Eq (binaryOperation stream self left power)
      (binaryOperation other twin left power) := by
  intro before
  apply (fits.mirrors_nextKind before).bind
  rintro kind middle _ kindRead rfl
  apply (fits.mirrors_advance middle).bind
  rintro id next _ idRead rfl
  split
  next =>
    obtain ⟨seen, passed⟩ := of_advance_eq_ok fits.nonempty idRead
    apply (fits.mirrorsAt_token seen passed).bind
    rintro token last tokenTwin - alike
    revert last
    apply fits.mirrors_location.bindEq
    intro location
    exact mirrors_reject ⟨.unexpected alike.quotes, rfl⟩
  next operator _ => exact ((mirrors _).bindEq fun right => mirrors_addNode _) next

theorem Fits.mirrors_phraseStep (request : Phrase) :
    comparison.Mirrors Eq (phraseStep grammar stream self request)
      (phraseStep grammar other twin request) := by
  match request with
  | .construct .primary => exact fits.mirrors_primary
  | .construct .operation => exact fits.mirrors_unaryOperation mirrors
  | .construct .grouping => exact fits.mirrors_grouping mirrors
  | .construct .expression => exact fits.mirrors_expression mirrors
  | .construct .statement => exact fits.mirrors_statement grammar mirrors
  | .construct .binding => exact fits.mirrors_binding mirrors
  | .construct .block => exact fits.mirrors_block mirrors
  | .construct .function => exact fits.mirrors_function mirrors
  | .construct .return => exact fits.mirrors_returnStatement mirrors
  | .expr floor => exact fits.mirrors_expr grammar mirrors floor
  | .continuation .operation left power => exact fits.mirrors_binaryOperation mirrors left power
  | .continuation .call left _ => exact fits.mirrors_call mirrors left

end Phrases

/-! ## Reading programs -/

section Programs

variable
  {comparison : Comparison}
  {stream other : Stream}
  (fits : comparison.Fits stream other)
  (grammar : Grammar)

include fits

theorem Fits.mirrors_phraseWithin
    {depth deeper : Nat}
    (covers : comparison.Covers depth deeper)
    (request : Phrase) :
    comparison.Mirrors Eq (phraseWithin grammar stream depth request)
      (phraseWithin grammar other deeper request) := by
  induction depth generalizing deeper request with
  | zero => exact covers.mirrors_endless (by rintro rfl; rfl)
  | succ depth ih =>
      obtain ⟨deeper, rfl, further⟩ := covers.exists_add_one
      exact fits.mirrors_phraseStep grammar (ih further) request

theorem Fits.mirrors_phrase (request : Phrase) :
    comparison.Mirrors Eq (phrase grammar stream request) (phrase grammar other request) :=
  fits.mirrors_phraseWithin grammar (fits.covers_listBound.mul_left waysPerToken) request

theorem Fits.mirrors_programStatements
    {bound larger : Nat}
    (covers : comparison.Covers bound larger) :
    comparison.Mirrors Eq (programStatements grammar stream bound)
      (programStatements grammar other larger) := by
  induction bound generalizing larger with
  | zero => exact covers.mirrors_endless (by rintro rfl; rfl)
  | succ bound ih =>
      obtain ⟨larger, rfl, further⟩ := covers.exists_add_one
      apply fits.mirrors_nextKind.bindEq
      intro kind
      split
      · exact mirrors_pure rfl
      · exact fits.mirrors_advance.discard.bindEq fun _ => ih further
      · apply (fits.mirrors_phrase grammar _).bindEq
        intro statement
        exact (ih further).bindEq fun rest => mirrors_pure rfl

theorem Fits.mirrors_program :
    comparison.Mirrors Eq (program grammar stream) (program grammar other) := by
  apply fits.mirrors_nextId.bindEq
  intro token
  apply (mirrors_addNode _).bindEq
  intro root
  apply (fits.mirrors_programStatements grammar fits.covers_listBound).bindEq
  intro statements
  apply (mirrors_addRun _).bindEq
  intro run
  exact mirrors_setNode root _

end Programs

end Comparison
end Frontend
