import Mathlib
import Frontend.Proofs.Grammar.Derivation
import Frontend.Proofs.Run

/-!
# Reading tokens and making nodes

For the parsers of single tokens and leaves, the exact condition under which they
succeed, with their results and the progress they make.
-/

namespace Frontend

namespace Stream

variable {stream : Stream} {place : Nat} {kind : Token.Kind}

theorem lt_size_of_kindAt? (present : stream.kindAt? place = some kind) :
    place < stream.tokens.size := by
  obtain ⟨token, present, -⟩ := Option.map_eq_some_iff.mp present
  exact (Array.getElem?_eq_some_iff.mp present).1

/-- There is a token after each one that does not end the file. -/
theorem Ends.succ_lt_size
    (ends : stream.Ends)
    (present : stream.kindAt? place = some kind)
    (goesOn : kind ≠ .endOfFile) :
    place + 1 < stream.tokens.size := by
  have notLast : place + 1 ≠ stream.tokens.size := by
    intro last
    have atEnd := ends.last
    rw [← last, Nat.add_sub_cancel, present, Option.some.injEq] at atEnd
    exact goesOn atEnd
  exact Nat.lt_of_le_of_ne (lt_size_of_kindAt? present) notLast

end Stream

namespace Parser

variable {α β : Type} {before after : Progress}

/-- The progress with which a reading ends. -/
def reached : EStateM.Result (Stop Diagnostic) Progress α -> Progress
  | .ok _ progress => progress
  | .error _ progress => progress

theorem bind_eq_ok {first : Parser α} {second : α -> Parser β} {result : β} :
    (first >>= second) before = .ok result after ↔
      ∃ value middle,
        first before = .ok value middle ∧ second value middle = .ok result after := by
  simp only [bind, EStateM.bind]
  cases first before with
  | ok value middle => simp
  | error stop middle => simp

theorem pure_eq_ok {value result : α} :
    (pure value : Parser α) before = .ok result after ↔
      value = result ∧ before = after := by
  simp [pure, EStateM.pure]

theorem get_eq_ok {result : Progress} :
    (get : Parser Progress) before = .ok result after ↔
      before = result ∧ before = after := by
  simp [get, getThe, MonadStateOf.get, EStateM.get]

theorem set_eq_ok {progress : Progress} {result : PUnit} :
    (set progress : Parser PUnit) before = .ok result after ↔ progress = after := by
  simp [set, MonadStateOf.set, EStateM.set]

theorem throw_eq_ok {stop : Stop Diagnostic} {result : α} :
    (throw stop : Parser α) before = .ok result after ↔ False := by
  simp [throw, throwThe, MonadExceptOf.throw, EStateM.throw]

theorem reject_eq_ok {diagnostic : Diagnostic} {result : α} :
    (reject diagnostic : Parser α) before = .ok result after ↔ False :=
  throw_eq_ok

theorem endless_eq_ok {result : α} :
    (endless : Parser α) before = .ok result after ↔ False :=
  throw_eq_ok

theorem discard_eq_ok {parser : Parser α} {result : PUnit} :
    discard parser before = .ok result after ↔
      ∃ value, parser before = .ok value after := by
  simp only [discard, Functor.mapConst, Function.comp, EStateM.map]
  cases parser before with
  | ok value middle => simp
  | error stop middle => simp

theorem ite_eq_ok {condition : Prop} [Decidable condition] {first second : Parser α} {result : α} :
    (if condition then first else second) before = .ok result after ↔
      (condition ∧ first before = .ok result after) ∨
        (¬ condition ∧ second before = .ok result after) := by
  split <;> simp_all

section Reading

variable {stream : Stream}

/-- Progress at a token of the stream. -/
def Ready (stream : Stream) (progress : Progress) : Prop :=
  progress.position < stream.tokens.size

/-- Progress beyond one more token. -/
def advanced (progress : Progress) : Progress :=
  { progress with position := progress.position + 1 }

theorem ready_of_kindAt?
    {kind : Token.Kind}
    (present : stream.kindAt? before.position = some kind) :
    Ready stream before :=
  Stream.lt_size_of_kindAt? present

theorem ready_advanced
    (ends : stream.Ends)
    {kind : Token.Kind}
    (present : stream.kindAt? before.position = some kind)
    (goesOn : kind ≠ .endOfFile) :
    Ready stream (advanced before) :=
  ends.succ_lt_size present goesOn

theorem Ready.exists_kindAt? (ready : Ready stream before) :
    ∃ kind, stream.kindAt? before.position = some kind := by
  simp [Stream.kindAt?, Array.getElem?_eq_getElem ready]

theorem nextId_eq (ready : Ready stream before) :
    nextId stream before = .ok before.position before := by
  have nonempty : stream.tokens.isEmpty = false := by
    rw [Array.isEmpty_eq_false_iff]
    rintro empty
    simp [Ready, empty] at ready
  have inside : min before.position (stream.tokens.size - 1) = before.position :=
    Nat.min_eq_left (Nat.le_sub_one_of_lt ready)
  simp only [nextId, nonempty, Bool.false_eq_true, if_false, bind, EStateM.bind, pure,
    EStateM.pure, get, getThe, MonadStateOf.get, EStateM.get, inside]

theorem next_eq
    {token : Token}
    (present : stream.tokens[before.position]? = some token) :
    next stream before = .ok token before := by
  have ready : Ready stream before := (Array.getElem?_eq_some_iff.mp present).1
  simp only [next, bind, EStateM.bind, nextId_eq ready, present, pure, EStateM.pure]

theorem nextKind_eq
    {kind : Token.Kind}
    (present : stream.kindAt? before.position = some kind) :
    nextKind stream before = .ok kind before := by
  obtain ⟨token, tokenPresent, rfl⟩ := Option.map_eq_some_iff.mp present
  simp only [nextKind, bind, EStateM.bind, next_eq tokenPresent, pure, EStateM.pure]

theorem advance_eq
    {kind : Token.Kind}
    (present : stream.kindAt? before.position = some kind)
    (goesOn : kind ≠ .endOfFile) :
    advance stream before = .ok before.position (advanced before) := by
  simp only [advance, bind, EStateM.bind, nextId_eq (ready_of_kindAt? present),
    nextKind_eq present, ne_eq, goesOn, not_false_eq_true, if_true, modify, modifyGet,
    MonadStateOf.modifyGet, EStateM.modifyGet, pure, EStateM.pure, advanced]

theorem discard_semicolon_eq
    (present : stream.kindAt? before.position = some .semicolon) :
    discard (advance stream) before = .ok ⟨⟩ (advanced before) :=
  discard_eq_ok.mpr ⟨_, advance_eq present (by decide)⟩

theorem expectOr_eq_ok
    (ready : Ready stream before)
    {kind : Token.Kind}
    (goesOn : kind ≠ .endOfFile)
    {diagnostic : Diagnostic}
    {result : TokenId} :
    expectOr stream kind diagnostic before = .ok result after ↔
      stream.kindAt? before.position = some kind ∧
        result = before.position ∧ after = advanced before := by
  obtain ⟨found, present⟩ := ready.exists_kindAt?
  simp only [expectOr, bind_eq_ok, nextKind_eq present, EStateM.Result.ok.injEq,
    ite_eq_ok, reject_eq_ok, present, Option.some.injEq]
  constructor
  · rintro ⟨_, _, ⟨rfl, rfl⟩, ⟨rfl, read⟩ | ⟨-, impossible⟩⟩
    · rw [advance_eq present goesOn] at read
      cases read
      exact ⟨rfl, rfl, rfl⟩
    · exact impossible.elim
  · rintro ⟨rfl, rfl, rfl⟩
    exact ⟨_, _, ⟨rfl, rfl⟩, .inl ⟨rfl, advance_eq present goesOn⟩⟩

theorem expect_eq_ok
    (ready : Ready stream before)
    (kind : Token.Kind)
    (goesOn : kind ≠ .endOfFile)
    {result : TokenId} :
    expect stream kind before = .ok result after ↔
      stream.kindAt? before.position = some kind ∧
        result = before.position ∧ after = advanced before := by
  obtain ⟨found, present⟩ := ready.exists_kindAt?
  simp only [expect, bind_eq_ok, nextKind_eq present, EStateM.Result.ok.injEq,
    ite_eq_ok, reject_eq_ok, present, Option.some.injEq]
  constructor
  · rintro ⟨_, _, ⟨rfl, rfl⟩, ⟨rfl, read⟩ | ⟨-, _, _, -, impossible⟩⟩
    · rw [advance_eq present goesOn] at read
      cases read
      exact ⟨rfl, rfl, rfl⟩
    · exact impossible.elim
  · rintro ⟨rfl, rfl, rfl⟩
    exact ⟨_, _, ⟨rfl, rfl⟩, .inl ⟨rfl, advance_eq present goesOn⟩⟩

/-- A terminator is read just where the grammar has one. -/
theorem terminator_eq_ok (ready : Ready stream before) {result : Unit} :
    terminator stream before = .ok result after ↔
      ∃ stop, stream.IsTerminator before.position stop ∧
        after = { before with position := stop } := by
  obtain ⟨found, present⟩ := ready.exists_kindAt?
  constructor
  · intro read
    simp only [terminator, bind_eq_ok, nextKind_eq present, EStateM.Result.ok.injEq] at read
    obtain ⟨_, _, ⟨rfl, rfl⟩, read⟩ := read
    split at read
    · rw [discard_eq_ok, advance_eq present (by decide)] at read
      obtain ⟨_, read⟩ := read
      cases read
      exact ⟨_, .semicolon present, rfl⟩
    · cases read
      exact ⟨_, .brace present, rfl⟩
    · cases read
      exact ⟨_, .endOfFile present, rfl⟩
    · simp [bind_eq_ok, reject_eq_ok] at read
  · rintro ⟨stop, terminates, rfl⟩
    simp only [terminator, bind_eq_ok]
    cases terminates with
    | semicolon present =>
        refine ⟨_, _, nextKind_eq present, ?_⟩
        exact discard_eq_ok.mpr ⟨_, advance_eq present (by decide)⟩
    | brace present => exact ⟨_, _, nextKind_eq present, rfl⟩
    | endOfFile present => exact ⟨_, _, nextKind_eq present, rfl⟩

/-- A list goes on after a comma, and ends before the closing parenthesis. -/
theorem separator_eq_ok (ready : Ready stream before) {reason : String} {result : Unit} :
    separator stream reason before = .ok result after ↔
      (stream.kindAt? before.position = some .comma ∧ after = advanced before) ∨
        (stream.kindAt? before.position = some .closeParen ∧ after = before) := by
  obtain ⟨found, present⟩ := ready.exists_kindAt?
  constructor
  · intro read
    simp only [separator, bind_eq_ok, nextKind_eq present, EStateM.Result.ok.injEq] at read
    obtain ⟨_, _, ⟨rfl, rfl⟩, read⟩ := read
    split at read
    · rw [discard_eq_ok, advance_eq present (by decide)] at read
      obtain ⟨_, read⟩ := read
      cases read
      exact .inl ⟨present, rfl⟩
    · cases read
      exact .inr ⟨present, rfl⟩
    · simp [bind_eq_ok, reject_eq_ok] at read
  · simp only [separator, bind_eq_ok]
    rintro (⟨present, rfl⟩ | ⟨present, rfl⟩)
    · refine ⟨_, _, nextKind_eq present, ?_⟩
      exact discard_eq_ok.mpr ⟨_, advance_eq present (by decide)⟩
    · exact ⟨_, _, nextKind_eq present, rfl⟩

end Reading

section Making

/-- Progress with one more node. -/
def withNode (progress : Progress) (node : Node) : Progress :=
  { progress with nodes := progress.nodes.push node }

/-- Progress with more words in the side array. -/
def withRun (progress : Progress) (words : List Nat) : Progress :=
  { progress with extra := progress.extra ++ words }

/-- The progress made by closing a block whose statements are read. -/
def withBlock (progress : Progress) (statements : List NodeId) (token : TokenId) : Progress :=
  withNode (withRun progress statements)
    ⟨.block, token, progress.extra.size, progress.extra.size + statements.length⟩

/-- The progress made by closing the body of a function that is read. -/
def withFunction
    (progress : Progress)
    (parameters : List NodeId)
    (body : NodeId)
    (token : TokenId)
    (name : NodeId) : Progress :=
  withNode
    (withRun (withRun progress parameters)
      [progress.extra.size, progress.extra.size + parameters.length, body])
    ⟨.function, token, name, (withRun progress parameters).extra.size⟩

theorem addNode_eq (node : Node) :
    addNode node before = .ok before.nodes.size (withNode before node) :=
  rfl

theorem addRun_eq (words : List Nat) :
    addRun words before =
      .ok (before.extra.size, before.extra.size + words.length) (withRun before words) := by
  simp only [addRun, modifyGet, MonadStateOf.modifyGet, EStateM.modifyGet, withRun,
    EStateM.Result.ok.injEq, Prod.mk.injEq, true_and]
  exact ⟨size_append_list _ _, rfl⟩

/-- Progress inside of one more function. -/
def entered (progress : Progress) : Progress :=
  { progress with depth := progress.depth + 1 }

theorem setNode_eq (id : NodeId) (node : Node) (before : Progress) :
    setNode id node before =
      if id < before.nodes.size then
        .ok ⟨⟩ { before with nodes := before.nodes.setIfInBounds id node }
      else
        .error (.fault (.node id)) before := by
  simp only [setNode, bind, EStateM.bind, get, getThe, MonadStateOf.get, EStateM.get]
  split <;> rfl

/-- A body is read inside of one more function, which is left also if reading fails. -/
theorem withinFunction_eq (body : Parser α) (before : Progress) :
    withinFunction body before =
      match body (entered before) with
      | .ok value after =>
          match after.depth with
          | 0 => .error (.fault .functionExit) after
          | depth + 1 => .ok value { after with depth }
      | .error stop after =>
          match after.depth with
          | 0 => .error (.fault .functionExit) after
          | depth + 1 => .error stop { after with depth } := by
  have enters : enterFunction before = .ok ⟨⟩ (entered before) := rfl
  simp only [withinFunction, bind, EStateM.bind, enters, get, getThe, MonadStateOf.get,
    EStateM.get]
  cases body (entered before) with
  | ok value after =>
      simp only [leaveFunction, set, MonadStateOf.set, EStateM.set, bind, EStateM.bind, get,
        getThe, MonadStateOf.get, EStateM.get]
      cases after.depth <;> rfl
  | error stop after =>
      simp only [leaveFunction, set, MonadStateOf.set, EStateM.set, bind, EStateM.bind, get,
        getThe, MonadStateOf.get, EStateM.get]
      cases after.depth <;> rfl

/-- What a reading of a body comes to, once the function is left. -/
def leaving (depth : Nat) :
    EStateM.Result (Stop Diagnostic) Progress α -> EStateM.Result (Stop Diagnostic) Progress α
  | .ok value after => .ok value { after with depth }
  | .error stop after => .error stop { after with depth }

/-- Behind a body, the function that was entered is still open. -/
theorem withinFunction_eq_leaving
    {body : Parser α}
    (opened : (reached (body (entered before))).depth = before.depth + 1) :
    withinFunction body before = leaving before.depth (body (entered before)) := by
  rw [withinFunction_eq]
  cases read : body (entered before) with
  | ok value after =>
      rw [read] at opened
      change after.depth = _ at opened
      simp only [opened, leaving]
  | error stop after =>
      rw [read] at opened
      change after.depth = _ at opened
      simp only [opened, leaving]

/-- The body of a function is read at one more depth, and left at one less. -/
theorem withinFunction_eq_ok {body : Parser α} {result : α} :
    withinFunction body before = .ok result after ↔
      ∃ middle depth,
        body (entered before) = .ok result middle ∧
          middle.depth = depth + 1 ∧ after = { middle with depth } := by
  rw [withinFunction_eq]
  cases body (entered before) with
  | ok value middle => cases found : middle.depth <;> simp [found, eq_comm, and_assoc]
  | error stop middle => cases found : middle.depth <;> simp [found]

end Making

end Parser

namespace Stream

/-- The value of every number in the stream can be read. -/
def HasValues (stream : Stream) : Prop :=
  ∀ token ∈ stream.tokens, Parser.hasValue token = true

instance (stream : Stream) : Decidable stream.HasValues :=
  inferInstanceAs (Decidable (∀ token ∈ stream.tokens, Parser.hasValue token = true))

/-- The tokens from `start` up to `stop` have values, where they are numbers. -/
def IsValued (stream : Stream) (start stop : Nat) : Prop :=
  ∀ place token, start ≤ place -> place < stop -> stream.tokens[place]? = some token ->
    Parser.hasValue token = true

namespace IsValued

variable {stream : Stream} {start middle stop : Nat}

theorem refl (stream : Stream) (start : Nat) : stream.IsValued start start := by
  intro place token above below
  omega

theorem append
    (early : stream.IsValued start middle)
    (late : stream.IsValued middle stop) :
    stream.IsValued start stop := by
  intro place token above below present
  by_cases before : place < middle
  · exact early place token above before present
  · exact late place token (Nat.le_of_not_lt before) below present

/-- Only numbers can lack a value. -/
theorem of_kindAt?
    {kind : Token.Kind}
    (present : stream.kindAt? start = some kind)
    (plain : kind ≠ .int ∧ kind ≠ .float) :
    stream.IsValued start (start + 1) := by
  intro place token above below found
  obtain rfl : place = start := Nat.le_antisymm (Nat.le_of_lt_succ below) above
  simp only [kindAt?, found, Option.map_some, Option.some.injEq] at present
  subst present
  unfold Parser.hasValue
  split
  next isInt => exact absurd isInt plain.1
  next isFloat => exact absurd isFloat plain.2
  next => rfl

/-- A token that is no number goes before. -/
theorem cons
    {kind : Token.Kind}
    (present : stream.kindAt? start = some kind)
    (plain : kind ≠ .int ∧ kind ≠ .float)
    (rest : stream.IsValued (start + 1) stop) :
    stream.IsValued start stop :=
  (of_kindAt? present plain).append rest

/-- A token that is no number goes after. -/
theorem concat
    {kind : Token.Kind}
    (early : stream.IsValued start stop)
    (present : stream.kindAt? stop = some kind)
    (plain : kind ≠ .int ∧ kind ≠ .float) :
    stream.IsValued start (stop + 1) :=
  early.append (of_kindAt? present plain)

end IsValued

/-- The tokens from `start` up to `stop` have values, where they are numbers, and there is
a token at `stop`. -/
structure Proceeds (stream : Stream) (start stop : Nat) : Prop where
  ready : stop < stream.tokens.size
  valued : stream.IsValued start stop

namespace Proceeds

variable {stream : Stream} {start middle stop : Nat} {kind : Token.Kind}

theorem refl (ready : start < stream.tokens.size) : stream.Proceeds start start :=
  ⟨ready, .refl stream start⟩

theorem append
    (early : stream.Proceeds start middle)
    (late : stream.Proceeds middle stop) :
    stream.Proceeds start stop :=
  ⟨late.ready, early.valued.append late.valued⟩

theorem cons
    (present : stream.kindAt? start = some kind)
    (plain : kind ≠ .int ∧ kind ≠ .float)
    (rest : stream.Proceeds (start + 1) stop) :
    stream.Proceeds start stop :=
  ⟨rest.ready, .cons present plain rest.valued⟩

theorem concat
    (ends : stream.Ends)
    (early : stream.Proceeds start stop)
    (present : stream.kindAt? stop = some kind)
    (plain : kind ≠ .int ∧ kind ≠ .float)
    (goesOn : kind ≠ .endOfFile) :
    stream.Proceeds start (stop + 1) :=
  ⟨ends.succ_lt_size present goesOn, early.valued.concat present plain⟩

theorem terminate
    (ends : stream.Ends)
    (early : stream.Proceeds start middle)
    (terminates : stream.IsTerminator middle stop) :
    stream.Proceeds start stop := by
  cases terminates with
  | semicolon present => exact early.concat ends present (by decide) (by decide)
  | brace => exact early
  | endOfFile => exact early

end Proceeds

/-- The column of every token in the stream fits into a word. -/
def HasLocations (stream : Stream) : Prop :=
  ∀ token ∈ stream.tokens,
    (stream.source.place token.span.start).column < Source.wordSize

instance (stream : Stream) : Decidable stream.HasLocations :=
  inferInstanceAs (Decidable (∀ token ∈ stream.tokens,
    (stream.source.place token.span.start).column < Source.wordSize))

end Stream

namespace Parser

section Leaves

variable {stream : Stream} {before after : Progress}

theorem leafTag?_eq_some {kind : Token.Kind} {tag : Tag} :
    leafTag? kind = some tag ↔
      (kind = .identifier ∧ tag = .identifier) ∨
        ∃ base, kind.IsLiteral base ∧ tag = .literal base := by
  constructor
  · intro found
    cases kind <;> simp only [leafTag?, Option.some.injEq, reduceCtorEq] at found <;>
      subst found
    case identifier => exact .inl ⟨rfl, rfl⟩
    all_goals exact .inr ⟨_, by constructor, rfl⟩
  · rintro (⟨rfl, rfl⟩ | ⟨base, isLiteral, rfl⟩)
    · rfl
    · cases isLiteral <;> rfl

theorem location_eq_ok
    {token : Token}
    (present : stream.tokens[before.position]? = some token)
    {result : Location} :
    location stream before = .ok result after ↔
      stream.source.locate token.span.start = .ok result ∧ after = before := by
  simp only [location, bind, EStateM.bind, next_eq present]
  cases found : stream.source.locate token.span.start with
  | ok location =>
      simp only [ofFault, pure_eq_ok, Except.ok.injEq]
      exact and_congr_right fun _ => eq_comm
  | error fault => simp [ofFault, throw_eq_ok]

theorem misplaced_eq_ok
    {token : Token}
    (present : stream.tokens[before.position]? = some token)
    {reason : String}
    {result : Diagnostic} :
    misplaced stream reason before = .ok result after ↔
      ∃ location, stream.source.locate token.span.start = .ok location ∧
        result = { cause := .misplaced token.value reason, location } ∧
          after = before := by
  simp only [misplaced, bind_eq_ok, next_eq present, EStateM.Result.ok.injEq, pure_eq_ok]
  constructor
  · rintro ⟨_, _, ⟨rfl, rfl⟩, location, middle, found, rfl, rfl⟩
    obtain ⟨located, rfl⟩ := (location_eq_ok present).mp found
    exact ⟨location, located, rfl, rfl⟩
  · rintro ⟨location, located, rfl, rfl⟩
    exact ⟨_, _, ⟨rfl, rfl⟩, location, _, (location_eq_ok present).mpr ⟨located, rfl⟩,
      rfl, rfl⟩

theorem eq_of_misplaced_eq_ok
    (ready : Ready stream before)
    {reason : String}
    {diagnostic : Diagnostic}
    (read : misplaced stream reason before = .ok diagnostic after) :
    after = before := by
  obtain ⟨location, -, -, same⟩ :=
    (misplaced_eq_ok (Array.getElem?_eq_getElem ready)).mp read
  exact same

theorem exists_misplaced_eq
    (located : stream.HasLocations)
    (ready : Ready stream before)
    (reason : String) :
    ∃ diagnostic, misplaced stream reason before = .ok diagnostic before := by
  have found := Source.locate_eq_ok (located _ (Array.getElem_mem ready))
  exact ⟨_, (misplaced_eq_ok (Array.getElem?_eq_getElem ready)).mpr ⟨_, found, rfl, rfl⟩⟩

/-- The progress made by reading a leaf. -/
def withLeaf (progress : Progress) (tag : Tag) : Progress :=
  withNode (advanced progress) ⟨tag, progress.position, 0, 0⟩

theorem of_identifier_eq_ok
    (ready : Ready stream before)
    {reason : String}
    {id : NodeId}
    (read : identifier stream reason before = .ok id after) :
    stream.kindAt? before.position = some .identifier ∧
      id = before.nodes.size ∧ after = withLeaf before .identifier := by
  simp only [identifier, bind_eq_ok] at read
  obtain ⟨diagnostic, middle, found, _, next, named, made⟩ := read
  rw [eq_of_misplaced_eq_ok ready found] at named
  obtain ⟨present, rfl, rfl⟩ := (expectOr_eq_ok ready (by decide)).mp named
  cases made
  exact ⟨present, rfl, rfl⟩

theorem identifier_eq
    (located : stream.HasLocations)
    (present : stream.kindAt? before.position = some .identifier)
    (reason : String) :
    identifier stream reason before =
      .ok before.nodes.size (withLeaf before .identifier) := by
  have ready := ready_of_kindAt? present
  obtain ⟨diagnostic, found⟩ := exists_misplaced_eq located ready reason
  simp only [identifier, bind_eq_ok]
  exact ⟨_, _, found, _, _,
    (expectOr_eq_ok ready (by decide)).mpr ⟨present, rfl, rfl⟩, rfl⟩

theorem of_primary_eq_ok
    (ready : Ready stream before)
    {id : NodeId}
    (read : primary stream before = .ok id after) :
    ∃ kind tag, stream.kindAt? before.position = some kind ∧ leafTag? kind = some tag ∧
      id = before.nodes.size ∧ after = withLeaf before tag := by
  have present := Array.getElem?_eq_getElem ready
  have kindPresent : stream.kindAt? before.position =
      some stream.tokens[before.position].kind := by simp [Stream.kindAt?, present]
  simp only [primary, bind_eq_ok, next_eq present, EStateM.Result.ok.injEq] at read
  obtain ⟨_, _, ⟨rfl, rfl⟩, read⟩ := read
  cases found : leafTag? stream.tokens[before.position].kind with
  | none => simp [found, bind_eq_ok, reject_eq_ok] at read
  | some tag =>
      have goesOn : stream.tokens[before.position].kind ≠ .endOfFile := by
        intro ends
        rw [ends] at found
        cases found
      simp only [found, ite_eq_ok, bind_eq_ok, reject_eq_ok,
        advance_eq kindPresent goesOn, EStateM.Result.ok.injEq] at read
      rcases read with ⟨-, _, _, -, _, _, impossible, -⟩ | ⟨-, _, _, ⟨rfl, rfl⟩, made⟩
      · exact impossible.elim
      · cases made
        exact ⟨_, tag, kindPresent, found, rfl, rfl⟩

/-- The value of a number is checked before it is read. -/
theorem isValued_of_primary
    (ready : Ready stream before)
    {id : NodeId}
    (read : primary stream before = .ok id after) :
    stream.IsValued before.position after.position := by
  obtain ⟨kind, tag, kindPresent, found, -, rfl⟩ := of_primary_eq_ok ready read
  intro place token above below present
  obtain rfl : place = before.position := Nat.le_antisymm (Nat.le_of_lt_succ below) above
  simp only [Stream.kindAt?, present, Option.map_some, Option.some.injEq] at kindPresent
  subst kindPresent
  by_contra unreadable
  simp only [primary, bind_eq_ok, next_eq present, EStateM.Result.ok.injEq] at read
  obtain ⟨_, _, ⟨rfl, rfl⟩, read⟩ := read
  simp only [found, ite_eq_ok, bind_eq_ok, reject_eq_ok] at read
  rcases read with ⟨-, _, _, -, _, _, impossible, -⟩ | ⟨readable, -⟩
  · exact impossible
  · exact readable (by simpa using unreadable)

theorem primary_eq
    (valued : stream.HasValues)
    {kind : Token.Kind}
    {tag : Tag}
    (present : stream.kindAt? before.position = some kind)
    (found : leafTag? kind = some tag) :
    primary stream before = .ok before.nodes.size (withLeaf before tag) := by
  obtain ⟨token, tokenPresent, rfl⟩ := Option.map_eq_some_iff.mp present
  have value := valued token (Array.mem_of_getElem? tokenPresent)
  have goesOn : token.kind ≠ .endOfFile := by
    intro ends
    rw [ends] at found
    cases found
  rw [primary, bind_eq_ok]
  refine ⟨_, _, next_eq tokenPresent, ?_⟩
  simp only [found, value, Bool.not_true, Bool.false_eq_true, if_false, bind_eq_ok]
  exact ⟨_, _, advance_eq present goesOn, rfl⟩

end Leaves

end Parser
end Frontend
