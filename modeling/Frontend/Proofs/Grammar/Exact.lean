import Frontend.Proofs.Grammar.Completeness
import Frontend.Proofs.Grammar.Soundness

/-!
# The parser is exact

A stream has a tree if and only if it is derivable, the program that it derives is
unique, and it is the program that the arrays of the tree hold.
-/

namespace Frontend

namespace Parser

section Programs

variable {stream : Stream} {before after : Progress}

theorem lists_programStatements :
    ListsStatements stream .endOfFile (phrase .standard stream)
      (programStatements .standard stream) where
  closes := .inr rfl
  zero := rfl
  closed present := by
    simp only [programStatements, bind, EStateM.bind, nextKind_eq present]
    rfl
  unclosed _ other := absurd rfl other
  skip present := by
    simp only [programStatements, bind, EStateM.bind, nextKind_eq present,
      discard_semicolon_eq present]
  more present notEnd _ notSemicolon := by
    simp only [programStatements, bind, EStateM.bind, nextKind_eq present]

/-- Reading the statements of a program makes just those that are derived. -/
theorem areStatements_of_programStatements
    (ends : stream.Ends)
    {bound : Nat}
    {ids : List NodeId}
    (ready : Ready stream before)
    (read : programStatements .standard stream bound before = .ok ids after) :
    ∃ statements : List (Statement Mark),
      BuildsStatements before after statements ∧
        statements.map (·.label.node) = ids ∧
        stream.AreStatements (decide (0 < before.depth)) before.position after.position
          (statements.map (·.map Mark.token)) ∧
        stream.kindAt? after.position = some .endOfFile :=
  lists_programStatements.areStatements ends (allSound_phraseWithin ends _)
    (allSteady_phraseWithin ends _) ready read

/-- The progress with which the statements of a program are read. -/
def rooted : Progress :=
  withNode {} ⟨.root, 0, 0, 0⟩

/-- The progress made by giving the root its statements. -/
def withRoot (progress : Progress) (statements : List NodeId) : Progress :=
  { withRun progress statements with
    nodes := progress.nodes.setIfInBounds Tree.root
      ⟨.root, 0, progress.extra.size, progress.extra.size + statements.length⟩ }

theorem program_eq_ok (ends : stream.Ends) {result : Unit} :
    program .standard stream {} = .ok result after ↔
      ∃ ids middle,
        programStatements .standard stream (listBound stream) rooted = .ok ids middle ∧
          0 < middle.nodes.size ∧ after = withRoot middle ids := by
  have ready : Ready stream {} := ends.nonempty
  simp only [program, setNode, bind_eq_ok, nextId_eq ready, addNode_eq, addRun_eq,
    get_eq_ok, EStateM.Result.ok.injEq]
  constructor
  · rintro ⟨_, _, ⟨rfl, rfl⟩, _, _, ⟨rfl, rfl⟩, ids, middle, read, _, _, ⟨rfl, rfl⟩, _, _,
      ⟨rfl, rfl⟩, made⟩
    simp only [ite_eq_ok, set_eq_ok, throw_eq_ok, and_false, or_false] at made
    exact ⟨ids, middle, read, made.1, made.2.symm⟩
  · rintro ⟨ids, middle, read, nonempty, rfl⟩
    refine ⟨_, _, ⟨rfl, rfl⟩, _, _, ⟨rfl, rfl⟩, ids, middle, read, _, _, ⟨rfl, rfl⟩, _, _,
      ⟨rfl, rfl⟩, ?_⟩
    simp only [ite_eq_ok, set_eq_ok]
    exact .inl ⟨nonempty, rfl⟩

end Programs

/-- The statements of a program are held below its root. -/
theorem BuildsStatements.represents
    {middle : Progress}
    {statements : List (Statement Mark)}
    (built : BuildsStatements rooted middle statements)
    (source : Source)
    (tokens : Array Token) :
    Tree.Represents
      { source, tokens
        nodes := (withRoot middle (statements.map (·.label.node))).nodes
        extra := (withRoot middle (statements.map (·.label.node))).extra }
      ⟨⟨Tree.root, 0⟩, statements⟩ := by
  have rootInside : Tree.root < middle.nodes.size :=
    Nat.lt_of_lt_of_le (by decide) built.grown.nodes.size_le
  have numbered : Numbered (Tree.root + 1) middle.nodes.size
      (statements.map (·.labels)).flatten := built.grown.numbered
  refine ⟨⟨rfl, ⟨middle.extra.size, ?_, .append_self _ _⟩, ?_⟩, ?_⟩
  · simp only [withRoot, Array.getElem?_setIfInBounds_self_of_lt rootInside, List.length_map]
  · intro statement member
    refine (built.held statement member).keep ?_ (.append _ _)
    -- The root has the first number, so no statement is changed with it.
    intro mark inside node present
    have below := (numbered.bounds (List.mem_flatten.mpr
      ⟨_, List.mem_map_of_mem member, inside⟩)).1
    have notRoot : Tree.root ≠ mark.node := Nat.ne_of_lt below
    simp only [withRoot, Array.getElem?_setIfInBounds_ne notRoot]
    exact present
  · simpa [withRoot] using numbered

end Parser

namespace Stream

open Frontend.Parser

variable {stream : Stream} {program : Program TokenId}

theorem tree_eq_ok (ends : stream.Ends) {tree : Tree} :
    stream.tree = .ok tree ↔
      ∃ ids middle,
        programStatements .standard stream (listBound stream) rooted = .ok ids middle ∧
          0 < middle.nodes.size ∧
          tree =
            { source := stream.source
              tokens := stream.tokens
              nodes := (withRoot middle ids).nodes
              extra := (withRoot middle ids).extra } := by
  constructor
  · intro made
    cases read : Parser.program .standard stream {} with
    | ok result after =>
        obtain ⟨ids, middle, statementsRead, nonempty, rfl⟩ := (program_eq_ok ends).mp read
        simp only [Stream.tree, read, Except.ok.injEq] at made
        exact ⟨ids, middle, statementsRead, nonempty, made.symm⟩
    | error stop after =>
        simp only [Stream.tree, read, reduceCtorEq] at made
  · rintro ⟨ids, middle, statementsRead, nonempty, rfl⟩
    have read : Parser.program .standard stream {} = .ok ⟨⟩ (withRoot middle ids) :=
      (program_eq_ok ends).mpr ⟨ids, middle, statementsRead, nonempty, rfl⟩
    simp only [Stream.tree, read]

/-- The tree of a stream represents a program that the stream derives. -/
theorem exists_represents
    (ends : stream.Ends)
    {tree : Tree}
    (made : stream.tree = .ok tree) :
    ∃ marked : Program Mark,
      tree.Represents marked ∧ stream.Derives (marked.map Mark.token) := by
  obtain ⟨ids, middle, read, -, rfl⟩ := (tree_eq_ok ends).mp made
  have ready : Ready stream rooted := ends.nonempty
  obtain ⟨statements, built, rfl, derived, ended⟩ :=
    areStatements_of_programStatements ends ready read
  exact ⟨_, built.represents stream.source stream.tokens, rfl, middle.position, derived, ended⟩

/-- A number is only read as an operand, and there its value is checked. So the numbers of
a stream that has a tree have values. -/
theorem hasValues_of_tree
    (once : stream.EndsOnce)
    {tree : Tree}
    (made : stream.tree = .ok tree) :
    stream.HasValues := by
  obtain ⟨ids, middle, read, -, -⟩ := (tree_eq_ok once).mp made
  have ready : Ready stream rooted := once.nonempty
  obtain ⟨-, -, -, -, ended⟩ := areStatements_of_programStatements once ready read
  have passed := (lists_programStatements.steady_list once (allSteady_phraseWithin once _) _ _ _ _
    ready read).valued
  have whole : stream.IsValued 0 stream.tokens.size := by
    rw [← (once.kindAt?_iff middle.position).mp ended]
    exact passed.concat ended (by decide)
  intro token member
  obtain ⟨place, inside, rfl⟩ := Array.mem_iff_getElem.mp member
  exact whole place _ (Nat.zero_le place) inside (Array.getElem?_eq_getElem inside)

/-- A program that the stream derives is represented by its tree. -/
theorem Derives.exists_tree_eq
    (derived : stream.Derives program)
    (ends : stream.Ends)
    (valued : stream.HasValues)
    (located : stream.HasLocations) :
    ∃ tree marked,
      stream.tree = .ok tree ∧ tree.Represents marked ∧ marked.map Mark.token = program := by
  obtain ⟨label, stop, derived, ended⟩ := derived
  have sequenced := areSequenced_of_areStatements ends valued located derived
  have enough : stop - 0 < listBound stream := by
    have inside := lt_size_of_kindAt? ended
    rw [listBound]
    omega
  have starts : rooted.position = 0 := rfl
  obtain ⟨built, middle, builds, same, -, read⟩ :=
    lists_programStatements.exists_eq sequenced starts rfl (depthAt_add_le 0) ended enough
  have nonempty : 0 < middle.nodes.size :=
    Nat.lt_of_lt_of_le (by decide) builds.grown.nodes.size_le
  refine ⟨_, _, (tree_eq_ok ends).mpr ⟨_, middle, read, nonempty, rfl⟩,
    builds.represents stream.source stream.tokens, ?_⟩
  rw [Program.map, same, ← label]

/-- An operand can start at this place. -/
def startsOperand (stream : Stream) (place : Nat) : Bool :=
  ((stream.kindAt? place).bind Grammar.standard.operand).isSome

theorem startsOperand_of_isExpression
    {level : Power}
    {start stop : Nat}
    {expression : Expression TokenId}
    (derived : stream.IsExpression level start stop expression) :
    stream.startsOperand start = true := by
  obtain ⟨kind, construct, present, found⟩ := derived.exists_operand
  simp [startsOperand, present, found]

theorem startsOperand_of_isTerminator
    {start stop : Nat}
    (terminates : stream.IsTerminator start stop) :
    stream.startsOperand start = false := by
  cases terminates with
  | semicolon present => simp [startsOperand, present, Grammar.standard]
  | brace present => simp [startsOperand, present, Grammar.standard]
  | endOfFile present => simp [startsOperand, present, Grammar.standard]

/-- A return that is derived has a value just if an operand starts after its word. -/
theorem isSome_of_mem_returns
    {inFunction : Bool}
    {start stop : Nat}
    {statements : List (Statement TokenId)}
    (derived : stream.AreStatements inFunction start stop statements) :
    ∀ statement ∈ statements, ∀ pair ∈ statement.returns,
      pair.2.isSome = stream.startsOperand (pair.1 + 1) := by
  refine @AreStatements.rec stream
    (fun _ _ _ statement _ => ∀ pair ∈ statement.returns,
      pair.2.isSome = stream.startsOperand (pair.1 + 1))
    (fun _ _ _ statements _ => ∀ statement ∈ statements, ∀ pair ∈ statement.returns,
      pair.2.isSome = stream.startsOperand (pair.1 + 1))
    ?binding ?block ?function ?return_ ?returnValue ?evaluate ?assign ?none ?skip ?more
    inFunction start stop statements derived
  case block =>
    intro inFunction start stop statements _ _ _ inside pair member
    simp only [Statement.returns, List.mem_flatten, List.mem_map] at member
    obtain ⟨_, ⟨statement, statementMember, rfl⟩, member⟩ := member
    exact inside statement statementMember pair member
  case function =>
    intro inFunction start middle stop names body _ _ _ _ _ _ _ _ inside pair member
    simp only [Statement.returns, List.mem_flatten, List.mem_map] at member
    obtain ⟨_, ⟨statement, statementMember, rfl⟩, member⟩ := member
    exact inside statement statementMember pair member
  case return_ =>
    intro start stop _ ended pair member
    simp only [Statement.returns, List.mem_singleton] at member
    subst member
    exact (startsOperand_of_isTerminator ended).symm
  case returnValue =>
    intro start valueStop stop value _ valueDerived _ pair member
    simp only [Statement.returns, List.mem_singleton] at member
    subst member
    exact (startsOperand_of_isExpression valueDerived.2).symm
  case binding => intros; simp_all [Statement.returns]
  case evaluate => intros; simp_all [Statement.returns]
  case assign => intros; simp_all [Statement.returns]
  case none => simp
  case skip => exact fun _ _ inside => inside
  case more =>
    intro inFunction start middle stop statement statements _ _ first rest other member
    rcases List.mem_cons.mp member with rfl | member
    · exact first
    · exact rest other member

/-- The returns of a derived program are decided by the tokens after them. -/
theorem Derives.returnsBy
    {marked : Program Mark}
    (derived : stream.Derives (marked.map Mark.token)) :
    ∀ statement ∈ marked.statements,
      statement.ReturnsBy fun mark => stream.startsOperand (mark.token + 1) := by
  intro statement member pair pairMember
  obtain ⟨-, stop, derived, -⟩ := derived
  have decided := isSome_of_mem_returns derived (statement.map Mark.token)
    (List.mem_map_of_mem member) (pair.1.token, pair.2.map (Whole.map Mark.token))
    (by rw [Statement.returns_map]; exact List.mem_map_of_mem pairMember)
  rw [Option.isSome_map] at decided
  exact decided

/-- A stream derives at most one program. -/
theorem Derives.unique
    {other : Program TokenId}
    (derived : stream.Derives program)
    (otherDerived : stream.Derives other)
    (ends : stream.Ends)
    (valued : stream.HasValues)
    (located : stream.HasLocations) :
    other = program := by
  obtain ⟨tree, marked, made, represents, rfl⟩ := derived.exists_tree_eq ends valued located
  obtain ⟨_, otherMarked, otherMade, otherRepresents, rfl⟩ :=
    otherDerived.exists_tree_eq ends valued located
  rw [made] at otherMade
  cases otherMade
  rw [otherRepresents.held.unique represents.held otherDerived.returnsBy derived.returnsBy]

/-- The parser accepts just what the grammar derives, and makes the tree of the
derivation. The derived program is unique. The arrays of the tree hold it and
nothing else, and while no node has the number that stands for an absent value, it
is the only program they hold. -/
theorem tree_exact
    (stream : Stream)
    (ends : stream.EndsOnce)
    (valued : stream.HasValues)
    (located : stream.HasLocations) :
    ((∃ tree, stream.tree = .ok tree) ↔ ∃ program, stream.Derives program) ∧
      ∀ program, stream.Derives program ->
        (∀ other, stream.Derives other -> other = program) ∧
          ∃ tree marked,
            stream.tree = .ok tree ∧ tree.Represents marked ∧
              marked.map Mark.token = program ∧
              (tree.nodes.size ≤ Node.absent ->
                ∀ other : Program Mark, other.Holds tree.nodes tree.extra -> other = marked) := by
  refine ⟨⟨?_, ?_⟩, ?_⟩
  · rintro ⟨tree, made⟩
    obtain ⟨marked, -, derived⟩ := exists_represents ends made
    exact ⟨_, derived⟩
  · rintro ⟨program, derived⟩
    obtain ⟨tree, marked, made, -⟩ := derived.exists_tree_eq ends valued located
    exact ⟨tree, made⟩
  · intro program derived
    refine ⟨fun other otherDerived => derived.unique otherDerived ends valued located, ?_⟩
    obtain ⟨tree, marked, made, represents, same⟩ := derived.exists_tree_eq ends valued located
    refine ⟨tree, marked, made, represents, same, fun small other held => ?_⟩
    exact held.unique represents.held
      (fun statement member => (held.statementsHeld statement member).returnsBy small)
      fun statement member =>
        (represents.held.statementsHeld statement member).returnsBy small

/-- Tokens of these kinds, one byte each, in a text that does not matter. -/
def ofKinds (kinds : List Token.Kind) : Stream where
  source := Source.ofText "" none
  tokens := (kinds.zipIdx.map fun (kind, place) =>
    ⟨kind, kind.name, ⟨place, place + 1⟩⟩).toArray

/-- The tokens of `*p = -a - b(c) * true`. -/
def assignment : Stream :=
  ofKinds [.star, .identifier, .assignment, .dash, .identifier, .dash, .identifier,
    .openParen, .identifier, .closeParen, .star, .trueWord, .endOfFile]

/-- What is assigned binds as `(-a) - ((b(c)) * true)`. -/
theorem assignment_derives :
    assignment.Derives
      ⟨0, [.assign 2 ⟨0, .unary 0 .dereference (.identifier 1)⟩
        ⟨3, .binary 5 .sub (.unary 3 .negate (.identifier 4))
          (.binary 10 .mul (.call 7 (.identifier 6) [.identifier 8]) (.literal 11 .bool))⟩]⟩ := by
  have target : assignment.IsExpression .unary 0 2 (.unary 0 .dereference (.identifier 1)) :=
    .unary rfl ((IsExpression.identifier rfl).loosen (by decide))
  have left : assignment.IsExpression .unary 3 5 (.unary 3 .negate (.identifier 4)) :=
    .unary rfl ((IsExpression.identifier rfl).loosen (by decide))
  have callee : assignment.IsExpression .call 6 7 (.identifier 6) :=
    (IsExpression.identifier rfl).loosen (by decide)
  have argument : assignment.IsExpression .disjunction 8 9 (.identifier 8) :=
    (IsExpression.identifier rfl).loosen (by decide)
  have call : assignment.IsExpression .call 6 10 (.call 7 (.identifier 6) [.identifier 8]) :=
    .call callee rfl (.last argument) rfl
  have literal : assignment.IsExpression .unary 11 12 (.literal 11 .bool) :=
    (IsExpression.literal rfl .trueWord).loosen (by decide)
  have right : assignment.IsExpression .multiplicative 6 12
      (.binary 10 .mul (.call 7 (.identifier 6) [.identifier 8]) (.literal 11 .bool)) :=
    @IsExpression.binary _ _ _ _ .mul _ _ _ (call.loosen (by decide)) rfl rfl literal
  have value : assignment.IsExpression .additive 3 12
      (.binary 5 .sub (.unary 3 .negate (.identifier 4))
        (.binary 10 .mul (.call 7 (.identifier 6) [.identifier 8]) (.literal 11 .bool))) :=
    @IsExpression.binary _ _ _ _ .sub _ _ _ (left.loosen (by decide)) rfl rfl right
  refine ⟨rfl, 12, .more ?_ .none, rfl⟩
  exact .assign ⟨rfl, target.loosen (by decide)⟩ rfl ⟨rfl, value.loosen (by decide)⟩
    (.endOfFile rfl)

theorem tree_exact_assignment :
    assignment.EndsOnce ∧ assignment.HasValues ∧ assignment.HasLocations ∧
      ∃ tree marked,
        assignment.tree = .ok tree ∧ tree.Represents marked ∧
          marked.map Mark.token =
            ⟨0, [.assign 2 ⟨0, .unary 0 .dereference (.identifier 1)⟩
              ⟨3, .binary 5 .sub (.unary 3 .negate (.identifier 4))
                (.binary 10 .mul (.call 7 (.identifier 6) [.identifier 8])
                  (.literal 11 .bool))⟩]⟩ := by
  have ends : assignment.EndsOnce := by decide
  have valued : assignment.HasValues := by decide
  have located : assignment.HasLocations := by decide
  refine ⟨ends, valued, located, ?_⟩
  obtain ⟨-, tree, marked, made, represents, same, -⟩ :=
    (tree_exact assignment ends valued located).2 _ assignment_derives
  exact ⟨tree, marked, made, represents, same⟩

/-- The tokens of `const x = true`, where the name is said to stand at the last
offset that fits into a word. -/
def distant : Stream where
  source := Source.ofText "" none
  tokens :=
    #[⟨.constWord, "const", ⟨0, 5⟩⟩,
      ⟨.identifier, "x", ⟨Node.absent, Node.absent⟩⟩,
      ⟨.assignment, "=", ⟨0, 0⟩⟩,
      ⟨.trueWord, "true", ⟨0, 0⟩⟩,
      ⟨.endOfFile, "EOF", ⟨0, 0⟩⟩]

/-- A name whose column does not fit into a word cannot be declared, even though
the declaration is derivable. -/
theorem distant_derives_without_tree :
    distant.EndsOnce ∧ distant.HasValues ∧ (∃ program, distant.Derives program) ∧
      ¬ ∃ tree, distant.tree = .ok tree := by
  refine ⟨by decide, by decide, ?_, ?_⟩
  · refine ⟨⟨0, [.binding 0 true 1 ⟨3, .literal 3 .bool⟩]⟩, rfl, 4, .more ?_ .none, rfl⟩
    exact .binding rfl rfl rfl
      ⟨rfl, (IsExpression.literal rfl .trueWord).loosen (by decide)⟩ (.endOfFile rfl)
  · rintro ⟨tree, made⟩
    have faults : distant.tree = .error (.fault (.column Node.absent)) := by rfl
    rw [faults] at made
    cases made

end Stream
end Frontend
