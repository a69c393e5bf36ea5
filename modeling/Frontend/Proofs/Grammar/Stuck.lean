import Frontend.Proofs.Grammar.Carrying
import Frontend.Proofs.Grammar.Exact

/-!
# Where reading gets stuck

A parser fails at the first token that it has no place for. The diagnostic is about this
token. What was read before it is the start of a phrase: there are tokens with which the
phrase is finished in every stream that goes on with them at this place.

A statement may have been ended only by the token at which reading got stuck. Then nothing
is finished but the list in which it stands, and what stands there instead is a closing
brace or the end of the file, which end a statement too.
-/

namespace Frontend

/-- The text of the program that a cause quotes, if it is a token. -/
def Diagnostic.Cause.quoted? : Diagnostic.Cause -> Option String
  | .unexpected text | .misplaced text _ | .badNumeral text => some text
  | _ => none

/-- Tokens of the kind need no value, and do not end the file. -/
def Token.Kind.isPlain : Token.Kind -> Bool
  | .int | .float | .endOfFile => false
  | _ => true

namespace Stream

/-- The diagnostic is about the token at the place. It quotes the value of the token, and
stands at its location. -/
def Blames (stream : Stream) (place : Nat) (diagnostic : Diagnostic) : Prop :=
  ∃ token, stream.tokens[place]? = some token ∧
    diagnostic.cause.quoted? = some token.value ∧
    stream.source.locate token.span.start = .ok diagnostic.location

/-- Tokens of these kinds stand in the stream, from the place on. -/
def Shows (stream : Stream) : Nat -> List Token.Kind -> Prop
  | _, [] => True
  | place, kind :: kinds => stream.kindAt? place = some kind ∧ stream.Shows (place + 1) kinds

theorem shows_append
    {stream : Stream}
    {place : Nat}
    {kinds others : List Token.Kind} :
    stream.Shows place (kinds ++ others) ↔
      stream.Shows place kinds ∧ stream.Shows (place + kinds.length) others := by
  induction kinds generalizing place with
  | nil => simp [Shows]
  | cons kind kinds ih =>
      rw [List.cons_append, Shows, Shows, ih, and_assoc, List.length_cons,
        Nat.add_assoc, Nat.add_comm 1]

/-- Reading from the start on is stuck at the place, with a diagnostic about the token there.
The numbers before it have values. There are tokens to go on with, behind which what was
read is `Finished` in every stream. -/
structure IsStuck
    (stream : Stream)
    (start place : Nat)
    (diagnostic : Diagnostic)
    (Finished : Stream -> Nat -> Prop) : Prop where
  blames : stream.Blames place diagnostic
  le : start ≤ place
  valued : stream.IsValued start place
  finish : ∃ kinds : List Token.Kind, kinds.all Token.Kind.isPlain = true ∧
    ∀ other, stream.Carries other 0 place -> other.Shows place kinds ->
      Finished other (place + kinds.length)

namespace IsStuck

variable
  {stream : Stream}
  {start middle place : Nat}
  {diagnostic : Diagnostic}
  {Inner Outer : Stream -> Nat -> Prop}

/-- What stands around a phrase is finished behind it. -/
theorem extend
    (stuck : stream.IsStuck middle place diagnostic Inner)
    (le : start ≤ middle)
    (valued : stream.IsValued start middle)
    (kinds : List Token.Kind)
    (plain : kinds.all Token.Kind.isPlain = true)
    (finish : ∀ other stop, stream.Carries other 0 place -> place ≤ stop ->
      Inner other stop -> other.Shows stop kinds -> Outer other (stop + kinds.length)) :
    stream.IsStuck start place diagnostic Outer where
  blames := stuck.blames
  le := Nat.le_trans le stuck.le
  valued := valued.append stuck.valued
  finish := by
    obtain ⟨inner, innerPlain, innerFinish⟩ := stuck.finish
    refine ⟨inner ++ kinds, by rw [List.all_append, innerPlain, plain]; rfl, ?_⟩
    intro other carries shows
    rw [shows_append] at shows
    rw [List.length_append, ← Nat.add_assoc]
    exact finish other _ carries (Nat.le_add_right place _)
      (innerFinish other carries shows.1) shows.2

/-- Nothing more is needed behind the phrase. -/
theorem mono
    (stuck : stream.IsStuck middle place diagnostic Inner)
    (le : start ≤ middle)
    (valued : stream.IsValued start middle)
    (finish : ∀ other stop, stream.Carries other 0 place -> Inner other stop ->
      Outer other stop) :
    stream.IsStuck start place diagnostic Outer :=
  stuck.extend le valued [] rfl fun other stop carries _ inner _ =>
    finish other stop carries inner

/-- What is finished may be seen as something else. -/
theorem imp
    (stuck : stream.IsStuck start place diagnostic Inner)
    (finish : ∀ other stop, Inner other stop -> Outer other stop) :
    stream.IsStuck start place diagnostic Outer :=
  stuck.mono (Nat.le_refl start) (.refl stream start) fun other stop _ => finish other stop

end IsStuck

end Stream

namespace Parser

/-! ## What a parser does when it fails -/

/-- If the parser fails from this progress, then with such a diagnostic and at such a
place. -/
def Fails
    {α : Type}
    (parser : Parser α)
    (before : Progress)
    (Failed : Diagnostic -> Nat -> Prop) : Prop :=
  ∀ diagnostic after, parser before = .error (.failed diagnostic) after ->
    Failed diagnostic after.position

section Rules

variable
  {α β : Type}
  {before middle : Progress}
  {Failed Weaker : Diagnostic -> Nat -> Prop}

theorem Fails.mono
    {parser : Parser α}
    (fails : Fails parser before Failed)
    (weaker : ∀ diagnostic place, Failed diagnostic place -> Weaker diagnostic place) :
    Fails parser before Weaker :=
  fun diagnostic after failed => weaker _ _ (fails diagnostic after failed)

theorem fails_of_ok
    {parser : Parser α}
    {value : α}
    {after : Progress}
    (read : parser before = .ok value after) :
    Fails parser before Failed := by
  intro diagnostic after failed
  rw [read] at failed
  cases failed

theorem fails_of_eq
    {parser other : Parser α}
    (same : parser before = other before)
    (fails : Fails other before Failed) :
    Fails parser before Failed :=
  fun diagnostic after failed => fails diagnostic after (same ▸ failed)

theorem fails_endless : Fails (endless : Parser α) before Failed := by
  rintro diagnostic after ⟨⟩

/-- The first parser fails, or the second one does after the first has succeeded. -/
theorem Fails.bind
    {first : Parser α}
    {next : α -> Parser β}
    (fails : Fails first before Failed)
    (goesOn : ∀ value middle, first before = .ok value middle ->
      Fails (next value) middle Failed) :
    Fails (first >>= next) before Failed := by
  intro diagnostic after failed
  change EStateM.bind first next before = _ at failed
  unfold EStateM.bind at failed
  cases read : first before with
  | ok value middle =>
      rw [read] at failed
      exact goesOn value middle read diagnostic after failed
  | error stop middle =>
      rw [read] at failed
      cases failed
      exact fails diagnostic after read

theorem fails_bind_of_ok
    {first : Parser α}
    {next : α -> Parser β}
    {value : α}
    (read : first before = .ok value middle)
    (goesOn : Fails (next value) middle Failed) :
    Fails (first >>= next) before Failed := by
  refine (fails_of_ok read).bind fun other reached otherRead => ?_
  rw [read] at otherRead
  cases otherRead
  exact goesOn

theorem Fails.discard
    {parser : Parser α}
    (fails : Fails parser before Failed) :
    Fails (discard parser) before Failed :=
  fails.bind fun _ _ _ => fails_of_ok rfl

end Rules

/-! ## Tokens -/

section Reading

variable
  {stream : Stream}
  {before after : Progress}
  {Failed : Diagnostic -> Nat -> Prop}

/-- The parser has not moved, and complains about the next token. -/
def Complains
    (stream : Stream)
    (before : Progress)
    (diagnostic : Diagnostic)
    (place : Nat) : Prop :=
  place = before.position ∧ stream.Blames place diagnostic

theorem fails_reject
    {α : Type}
    {diagnostic : Diagnostic}
    (blames : stream.Blames before.position diagnostic) :
    Fails (reject diagnostic : Parser α) before (Complains stream before) := by
  rintro _ _ ⟨⟩
  exact ⟨rfl, blames⟩

/-- What the next token cannot continue can be finished in its place. -/
theorem Complains.isStuck
    {diagnostic : Diagnostic}
    {start place : Nat}
    {Finished : Stream -> Nat -> Prop}
    (complains : Complains stream before diagnostic place)
    (le : start ≤ before.position)
    (valued : stream.IsValued start before.position)
    (kinds : List Token.Kind)
    (plain : kinds.all Token.Kind.isPlain = true)
    (finish : ∀ other, stream.Carries other 0 before.position ->
      other.Shows before.position kinds -> Finished other (before.position + kinds.length)) :
    stream.IsStuck start place diagnostic Finished := by
  obtain ⟨rfl, blames⟩ := complains
  exact ⟨blames, le, valued, kinds, plain, finish⟩

/-- A parser does not fail at the token that it expects. -/
theorem fails_expect_of_present
    {kind : Token.Kind}
    (present : stream.kindAt? before.position = some kind)
    (goesOn : kind ≠ .endOfFile) :
    Fails (expect stream kind) before Failed :=
  fails_of_ok ((expect_eq_ok (ready_of_kindAt? present) kind goesOn).mpr ⟨present, rfl, rfl⟩)

variable (ready : Ready stream before)

include ready

theorem fails_location : Fails (location stream) before Failed := by
  refine fails_bind_of_ok (next_eq (Array.getElem?_eq_getElem ready)) ?_
  generalize stream.source.locate _ = result
  cases result with
  | ok value => exact fails_of_ok rfl
  | error fault => rintro diagnostic after ⟨⟩

theorem fails_misplaced {reason : String} : Fails (misplaced stream reason) before Failed :=
  fails_bind_of_ok (next_eq (Array.getElem?_eq_getElem ready))
    ((fails_location ready).bind fun _ _ _ => fails_of_ok rfl)

theorem blames_of_misplaced
    {reason : String}
    {diagnostic : Diagnostic}
    (described : misplaced stream reason before = .ok diagnostic after) :
    after = before ∧ stream.Blames before.position diagnostic := by
  have present := Array.getElem?_eq_getElem ready
  obtain ⟨location, found, rfl, rfl⟩ := (misplaced_eq_ok present).mp described
  exact ⟨rfl, _, present, rfl, found⟩

/-- A parser fails because there is no place for the next token, with a reason. -/
theorem fails_reject_misplaced {α : Type} {reason : String} :
    Fails (misplaced stream reason >>= reject : Parser α) before (Complains stream before) := by
  refine (fails_misplaced ready).bind fun diagnostic middle described => ?_
  obtain ⟨rfl, blames⟩ := blames_of_misplaced ready described
  exact fails_reject blames

/-- A parser fails because there is no place for the next token. -/
theorem fails_reject_unexpected {α : Type} :
    Fails (unexpected stream >>= reject : Parser α) before (Complains stream before) := by
  have present := Array.getElem?_eq_getElem ready
  have never : Fails (unexpected stream) before (Complains stream before) :=
    fails_bind_of_ok (next_eq present)
      ((fails_location ready).bind fun _ _ _ => fails_of_ok rfl)
  refine never.bind fun diagnostic middle described => ?_
  simp only [unexpected, bind_eq_ok, next_eq present, EStateM.Result.ok.injEq,
    pure_eq_ok] at described
  obtain ⟨_, _, ⟨rfl, rfl⟩, location, _, read, rfl, rfl⟩ := described
  obtain ⟨found, rfl⟩ := (location_eq_ok present).mp read
  exact fails_reject ⟨_, present, rfl, found⟩

theorem fails_nextKind
    {α : Type}
    {next : Token.Kind -> Parser α}
    (goesOn : ∀ kind, stream.kindAt? before.position = some kind ->
      Fails (next kind) before Failed) :
    Fails (nextKind stream >>= next) before Failed := by
  obtain ⟨kind, present⟩ := ready.exists_kindAt?
  exact fails_bind_of_ok (nextKind_eq present) (goesOn kind present)

theorem fails_expectOr
    {kind : Token.Kind}
    {diagnostic : Diagnostic}
    (blames : stream.Blames before.position diagnostic)
    (goesOn : kind ≠ .endOfFile) :
    Fails (expectOr stream kind diagnostic) before (Complains stream before) := by
  refine fails_nextKind ready fun found present => ?_
  split
  next same => exact fails_of_ok (advance_eq present (same ▸ goesOn))
  next => exact fails_reject blames

theorem fails_expect {kind : Token.Kind} (goesOn : kind ≠ .endOfFile) :
    Fails (expect stream kind) before (Complains stream before) := by
  refine fails_nextKind ready fun found present => ?_
  split
  next same => exact fails_of_ok (advance_eq present (same ▸ goesOn))
  next => exact fails_reject_unexpected ready

theorem fails_terminator : Fails (terminator stream) before (Complains stream before) := by
  refine fails_nextKind ready fun found present => ?_
  split
  · exact (fails_of_ok (advance_eq present (by decide))).discard
  · exact fails_of_ok rfl
  · exact fails_of_ok rfl
  · exact fails_reject_misplaced ready

theorem fails_separator {reason : String} :
    Fails (separator stream reason) before (Complains stream before) := by
  refine fails_nextKind ready fun found present => ?_
  split
  · exact (fails_of_ok (advance_eq present (by decide))).discard
  · exact fails_of_ok rfl
  · exact fails_reject_misplaced ready

theorem fails_identifier {reason : String} :
    Fails (identifier stream reason) before (Complains stream before) := by
  refine (fails_misplaced ready).bind fun diagnostic middle described => ?_
  obtain ⟨rfl, blames⟩ := blames_of_misplaced ready described
  exact (fails_expectOr ready blames (by decide)).bind fun _ _ _ => fails_of_ok rfl

theorem fails_primary : Fails (primary stream) before (Complains stream before) := by
  have present := Array.getElem?_eq_getElem ready
  refine fails_bind_of_ok (next_eq present) ?_
  cases found : leafTag? stream.tokens[before.position].kind with
  | none => exact fails_reject_unexpected ready
  | some tag =>
      have kindPresent : stream.kindAt? before.position =
          some stream.tokens[before.position].kind := by simp [Stream.kindAt?, present]
      have goesOn : stream.tokens[before.position].kind ≠ .endOfFile := by
        intro isEnd
        rw [isEnd] at found
        cases found
      dsimp only
      split
      · refine (fails_location ready).bind fun location middle read => ?_
        obtain ⟨located, rfl⟩ := (location_eq_ok present).mp read
        have blames : stream.Blames middle.position
            { cause := .badNumeral stream.tokens[middle.position].value, location } :=
          ⟨_, present, rfl, located⟩
        exact (fails_reject blames).bind fun _ _ impossible =>
          (reject_eq_ok.mp impossible).elim
      · exact fails_bind_of_ok (advance_eq kindPresent goesOn) (fails_of_ok rfl)

end Reading

end Parser

end Frontend
