import Frontend.Proofs.Grammar.Around
import Frontend.Proofs.Grammar.Ending
import Frontend.Proofs.Grammar.Parallel

/-!
# Returns stand in functions

Whatever a parser does, it leaves as many functions open as there were. So a return is read
in the body of a function and nowhere else, through all blocks and functions in between. If
a stream would be a program but for returns in no function, the first of these is refused.
-/

namespace Frontend

/-! ## Open functions -/

/-- A comparison of readings that do not have to agree anywhere. -/
def Comparison.nowhere : Comparison where
  Inside _ := False
  Quotes _ _ := True
  Ignores _ _ := True
  downward _ inside := inside

/-- No parser of a phrase opens a function that it does not close, or closes another one. -/
theorem Parser.depth_phrase
    {stream : Stream}
    (nonempty : 0 < stream.tokens.size)
    (grammar : Grammar)
    (request : Phrase)
    (before : Progress) :
    (reached (phrase grammar stream request before)).depth = before.depth := by
  have fits : Comparison.nowhere.Fits stream stream :=
    ⟨nonempty, .inl rfl, fun token _ => ⟨token, rfl, rfl, trivial⟩,
      fun _ inside => inside.elim⟩
  exact (fits.mirrors_phrase grammar request before).depth

/-! ## Returns in no function -/

namespace Stream

/-- The stream would derive the program if returns were allowed everywhere. -/
structure DerivesLoosely (stream : Stream) (program : Program TokenId) : Prop where
  label : program.label = 0
  statements : ∃ stop,
    stream.AreStatements true 0 stop program.statements ∧
      stream.kindAt? stop = some .endOfFile

/-- There is a return at the place, and the reason is that it is in no function. -/
def Misplaces (stream : Stream) (place : Nat) (reason : Stop Diagnostic) : Prop :=
  ∃ token location,
    stream.tokens[place]? = some token ∧ token.kind = .returnWord ∧
      stream.source.locate token.span.start = .ok location ∧
      reason = .failed ⟨.misplaced token.value "return outside of a function", location⟩

end Stream

namespace Parser

variable {stream : Stream} {start stop : Nat} {reason : Stop Diagnostic}

/-- Outside of functions, statements from this place on are refused for the reason, in the
list of a block and in that of a program. -/
structure Refuses (stream : Stream) (start : Nat) (reason : Stop Diagnostic) : Prop where
  inside : start < stream.tokens.size
  stops : ∀ depth closing list,
    ListsStatements stream closing (phraseWithin .standard stream depth) list ->
      ∀ bound before, before.position = start -> before.depth = 0 ->
        depthAt stream start + 3 ≤ depth -> stream.tokens.size - start < bound ->
          ∃ after, list bound before = .error reason after

/-- A statement with a table entry is refused as the entry says. -/
theorem refuses_of_entry
    {kind : Token.Kind}
    {construct : Construct}
    (present : stream.kindAt? start = some kind)
    (begins : Begins kind)
    (found : Grammar.standard.statement kind = some construct)
    (refused : ∀ depth before, before.position = start -> before.depth = 0 ->
      depthAt stream start ≤ depth + 1 ->
        ∃ after, phraseStep .standard stream (phraseWithin .standard stream depth)
          (.construct construct) before = .error reason after) :
    Refuses stream start reason := by
  refine ⟨Stream.lt_size_of_kindAt? present, ?_⟩
  rintro depth closing list lists bound before rfl outside deep enough
  obtain ⟨notBrace, notEnd, notSemicolon⟩ := begins
  have goesOn : kind ≠ closing := by rcases lists.closes with rfl | rfl <;> assumption
  obtain ⟨bound, rfl⟩ := Nat.exists_eq_succ_of_ne_zero (Nat.ne_zero_of_lt enough)
  obtain ⟨depth, rfl⟩ : ∃ rest, depth = rest + 2 := Nat.exists_eq_add_of_le' (by omega)
  obtain ⟨after, stopped⟩ := refused depth before rfl outside (by omega)
  have statementStopped : phraseWithin .standard stream (depth + 2) (.construct .statement)
      before = .error reason after := by
    change statement .standard stream (phraseWithin .standard stream (depth + 1)) before = _
    rw [statement_eq_of_entry present found]
    exact stopped
  refine ⟨after, ?_⟩
  rw [lists.more present goesOn notEnd notSemicolon]
  simp only [bind, EStateM.bind, statementStopped]

theorem exists_refuses_return
    (located : stream.HasLocations)
    (present : stream.kindAt? start = some .returnWord) :
    ∃ reason, stream.Misplaces start reason ∧ Refuses stream start reason := by
  obtain ⟨token, tokenPresent, isReturn⟩ := Option.map_eq_some_iff.mp present
  have found := Source.locate_eq_ok (located token (Array.mem_of_getElem? tokenPresent))
  refine ⟨_, ⟨token, _, tokenPresent, isReturn, found, rfl⟩,
    refuses_of_entry present ⟨by decide, by decide, by decide⟩ rfl ?_⟩
  rintro depth before rfl outside -
  have described : misplaced stream "return outside of a function" before = .ok _ before :=
    (misplaced_eq_ok tokenPresent).mpr ⟨_, found, rfl, rfl⟩
  have closed : inFunction before = .ok (decide (0 < before.depth)) before := rfl
  refine ⟨before, ?_⟩
  simp only [phraseStep, returnStatement, bind, EStateM.bind, closed, outside, Nat.lt_irrefl,
    decide_false, Bool.not_false, if_true, described]
  rfl

/-- A block with refused statements is refused. -/
theorem Refuses.block
    (refuses : Refuses stream (start + 1) reason)
    (opened : stream.kindAt? start = some .openCurly) :
    Refuses stream start reason := by
  refine refuses_of_entry opened ⟨by decide, by decide, by decide⟩ rfl ?_
  rintro depth before rfl outside deep
  obtain ⟨after, stopped⟩ := refuses.stops depth _ _ lists_blockStatements (listBound stream)
    (advanced before) rfl outside (deeper_succ (Stream.lt_size_of_kindAt? opened) deep (by decide))
    (by rw [listBound]; omega)
  have entered : expect stream .openCurly before = .ok before.position (advanced before) :=
    (expect_eq_ok (ready_of_kindAt? opened) _ (by decide)).mpr ⟨opened, rfl, rfl⟩
  refine ⟨after, ?_⟩
  simp only [phraseStep, Parser.block, bind, EStateM.bind, entered, stopped]

/-- Statements that are read in front of refused ones change nothing. -/
theorem Refuses.of_areSequenced
    {statements : List (Statement TokenId)}
    (sequenced : AreSequenced stream (IsItem stream false) start stop statements)
    (refuses : Refuses stream stop reason) :
    Refuses stream start reason := by
  have inside := refuses.inside
  have ordered := sequenced.le fun item => Nat.le_of_lt item.lt
  refine ⟨by omega, fun depth closing list lists bound before starts outside deep enough => ?_⟩
  have fits : stop - start ≤ bound := by omega
  obtain ⟨built, after, rest, builds, -, stops, fewer, read⟩ :=
    lists.exists_append_eq sequenced starts (by simp [outside]) deep fits
  obtain ⟨last, stopped⟩ := refuses.stops depth closing list lists rest after stops
    (builds.grown.depth.trans outside) (by rw [depthAt] at deep ⊢; omega) (by omega)
  refine ⟨last, ?_⟩
  simp only [read, Functor.map, EStateM.map, stopped]

/-- Without stray returns something is derived. Otherwise the first of them is refused, from
the start on. -/
structure IsDecidedBy
    (stream : Stream)
    (start : Nat)
    (strays : List TokenId)
    (Derived : Prop) : Prop where
  derived : strays = [] -> Derived
  refused : ∀ place later, strays = place :: later ->
    ∃ reason, stream.Misplaces place reason ∧ Refuses stream start reason

theorem IsDecidedBy.imp
    {strays : List TokenId}
    {Inner Outer : Prop}
    {outer : Nat}
    (decided : IsDecidedBy stream start strays Inner)
    (derives : Inner -> Outer)
    (refuses : ∀ reason, Refuses stream start reason -> Refuses stream outer reason) :
    IsDecidedBy stream outer strays Outer where
  derived none := derives (decided.derived none)
  refused place later found := by
    obtain ⟨reason, misplaced, refused⟩ := decided.refused place later found
    exact ⟨reason, misplaced, refuses reason refused⟩

/-- Statements that are derived inside of a function are so everywhere, or the first return
among them that is in no other function is refused. -/
theorem isDecidedBy_strayReturns
    (ends : stream.Ends)
    (valued : stream.HasValues)
    (located : stream.HasLocations)
    {statements : List (Statement TokenId)}
    (derived : stream.AreStatements true start stop statements) :
    IsDecidedBy stream start (statements.map (·.outline.strayReturns)).flatten
      (∀ inFunction, stream.AreStatements inFunction start stop statements) := by
  refine @Stream.AreStatements.rec stream
    (fun _ start stop statement _ => IsDecidedBy stream start statement.outline.strayReturns
      (∀ inFunction, stream.IsStatement inFunction start stop statement))
    (fun _ start stop statements _ =>
      IsDecidedBy stream start (statements.map (·.outline.strayReturns)).flatten
        (∀ inFunction, stream.AreStatements inFunction start stop statements))
    ?binding ?block ?function ?return_ ?returnValue ?evaluate ?assign ?none ?skip ?more
    true start stop statements derived
  case binding =>
    intro _ _ _ _ _ _ present named assigned valueDerived ended
    exact ⟨fun _ _ => .binding present named assigned valueDerived ended,
      by rw [Statement.strayReturns_outline]; simp⟩
  case block =>
    intro _ start stop statements opened _ closed inside
    rw [Statement.strayReturns_outline]
    exact inside.imp (fun derived _ => .block opened (derived _) closed)
      fun _ refuses => refuses.block opened
  case function =>
    intro _ _ _ _ _ _ present named opened parameters closed bodyOpened body bodyClosed _
    exact ⟨fun _ _ => .function present named opened parameters closed bodyOpened body bodyClosed,
      by rw [Statement.strayReturns_outline]; simp⟩
  case return_ =>
    intro start _ present _
    rw [Statement.strayReturns_outline]
    exact ⟨by simp, by simpa using exists_refuses_return located present⟩
  case returnValue =>
    intro start _ _ _ present _ _
    rw [Statement.strayReturns_outline]
    exact ⟨by simp, by simpa using exists_refuses_return located present⟩
  case evaluate =>
    intro _ _ _ _ _ valueDerived ended
    exact ⟨fun _ _ => .evaluate valueDerived ended, by rw [Statement.strayReturns_outline]; simp⟩
  case assign =>
    intro _ _ _ _ _ _ _ targetDerived assigned valueDerived ended
    exact ⟨fun _ _ => .assign targetDerived assigned valueDerived ended,
      by rw [Statement.strayReturns_outline]; simp⟩
  case none =>
    intros
    exact ⟨fun _ _ => .none, by simp⟩
  case skip =>
    intro _ _ _ _ present _ rest
    exact rest.imp (fun derived _ => .skip present (derived _))
      fun _ => .of_areSequenced (.skip present .none)
  case more =>
    intro _ start middle _ statement _ _ _ first rest
    rw [List.map_cons, List.flatten_cons]
    cases found : statement.outline.strayReturns with
    | nil =>
        -- Without a stray return the first statement is read, and the rest decides.
        have derived := first.derived found
        have sequenced :=
          areSequenced_of_areStatements ends valued located (.more (derived false) .none)
        exact rest.imp (fun later _ => .more (derived _) (later _))
          fun _ => .of_areSequenced sequenced
    | cons place others =>
        refine ⟨by simp, ?_⟩
        rintro _ _ ⟨⟩
        exact first.refused place others found

/-- A program with refused statements has no tree. -/
theorem Refuses.tree_eq (refuses : Refuses stream 0 reason) (ends : stream.Ends) :
    stream.tree = .error reason := by
  obtain ⟨after, stopped⟩ := refuses.stops _ _ _ lists_programStatements (listBound stream)
    rooted rfl rfl (depthAt_add_le 0) (by rw [listBound]; omega)
  have ready : Ready stream {} := ends.nonempty
  unfold rooted at stopped
  simp only [Stream.tree, program, bind, EStateM.bind, nextId_eq ready, addNode_eq, stopped]

end Parser

namespace Stream

/-- Reading any phrase, from any progress and whether it succeeds or fails, leaves as many
functions open as there were, and from a token on it comes to an end. So if a stream would be
a program with returns everywhere, it is one just if all of them are in functions, through
blocks and other functions. Otherwise the first one that is not is refused. In every tree
that is read there is a function around each return. -/
theorem returns_stand_in_functions {stream : Stream} (ends : stream.Ends) :
    (∀ request before,
      (Parser.reached (Parser.phrase .standard stream request before)).depth = before.depth ∧
        (before.position < stream.tokens.size ->
          Parser.Settles stream (Parser.phrase .standard stream request before))) ∧
    (stream.HasValues -> stream.HasLocations ->
      ∀ program, stream.DerivesLoosely program ->
        ((∃ tree, stream.tree = .ok tree) ↔ program.outline.strayReturns = []) ∧
          (∀ tree, stream.tree = .ok tree ->
            ∃ marked, tree.Represents marked ∧ marked.map Mark.token = program) ∧
          ∀ place later, program.outline.strayReturns = place :: later ->
            ∃ reason, stream.Misplaces place reason ∧ stream.tree = .error reason) ∧
    ∀ tree, stream.tree = .ok tree ->
      ∀ node, tree.tag? node = some .return ->
        ∃ function, tree.tag? function = some .function ∧ tree.IsBelow function node := by
  refine ⟨fun request before => ⟨Parser.depth_phrase ends.nonempty _ request before,
    Parser.settles_phrase ends request⟩, ?_, ?_⟩
  · rintro valued located program ⟨label, stop, derived, ended⟩
    have decided := Parser.isDecidedBy_strayReturns ends valued located derived
    rw [← program.strayReturns_outline] at decided
    have refused : ∀ place later, program.outline.strayReturns = place :: later ->
        ∃ reason, stream.Misplaces place reason ∧ stream.tree = .error reason := by
      intro place later found
      obtain ⟨reason, misplaced, refuses⟩ := decided.refused place later found
      exact ⟨reason, misplaced, refuses.tree_eq ends⟩
    have accepted : program.outline.strayReturns = [] -> ∃ tree marked,
        stream.tree = .ok tree ∧ tree.Represents marked ∧ marked.map Mark.token = program :=
      fun none => Derives.exists_tree_eq ⟨label, stop, decided.derived none false, ended⟩ ends
        valued located
    have free : ∀ tree, stream.tree = .ok tree -> program.outline.strayReturns = [] := by
      intro tree made
      refine List.eq_nil_iff_forall_not_mem.mpr fun place member => ?_
      obtain ⟨first, later, found⟩ := List.exists_cons_of_ne_nil (List.ne_nil_of_mem member)
      obtain ⟨reason, -, stopped⟩ := refused first later found
      rw [made] at stopped
      cases stopped
    refine ⟨⟨fun ⟨tree, made⟩ => free tree made, fun none => ?_⟩, ?_, refused⟩
    · obtain ⟨tree, -, made, -⟩ := accepted none
      exact ⟨tree, made⟩
    · intro tree made
      obtain ⟨_, marked, sameMade, represents, same⟩ := accepted (free tree made)
      rw [made] at sameMade
      cases sameMade
      exact ⟨marked, represents, same⟩
  · intro tree made node isReturn
    obtain ⟨marked, represents, derived⟩ := exists_represents ends made
    obtain ⟨function, around⟩ := represents.exists_function_around derived isReturn
    exact ⟨function, around.1, around.isBelow⟩

/-- The tokens of `{ fn f() { return } return }`. -/
def afterFunction : Stream :=
  ofKinds [.openCurly, .fnWord, .identifier, .openParen, .closeParen, .openCurly, .returnWord,
    .closeCurly, .returnWord, .closeCurly, .endOfFile]

/-- The tokens of `fn f() { { return } }`. -/
def inBlock : Stream :=
  ofKinds [.fnWord, .identifier, .openParen, .closeParen, .openCurly, .openCurly, .returnWord,
    .closeCurly, .closeCurly, .endOfFile]

theorem returns_stand_in_functions_examples :
    (afterFunction.Ends ∧
      (Parser.reached
        (Parser.phrase .standard afterFunction (.construct .block) { depth := 2 })).depth = 2 ∧
      ∃ reason, afterFunction.Misplaces 8 reason ∧ afterFunction.tree = .error reason) ∧
    inBlock.Ends ∧
      ∃ tree function, inBlock.tree = .ok tree ∧ tree.tag? 2 = some .return ∧
        tree.tag? function = some .function ∧ tree.IsBelow function 2 := by
  have ends : afterFunction.Ends := by decide
  have derived : afterFunction.DerivesLoosely
      ⟨0, [.block 0 [.function 1 2 [] 5 [.return 6 none], .return 8 none]]⟩ :=
    ⟨rfl, 10,
      .more (.block (by decide)
        (.more
          (.function (by decide) (by decide) (by decide) .none (by decide) (by decide)
            (.more (.return (by decide) (.brace (by decide))) .none) (by decide))
          (.more (.return (by decide) (.brace (by decide))) .none))
        (by decide)) .none,
      by decide⟩
  have blockEnds : inBlock.Ends := by decide
  have blockDerived : inBlock.DerivesLoosely
      ⟨0, [.function 0 1 [] 4 [.block 5 [.return 6 none]]]⟩ :=
    ⟨rfl, 9,
      .more
        (.function (by decide) (by decide) (by decide) .none (by decide) (by decide)
          (.more (.block (by decide)
            (.more (.return (by decide) (.brace (by decide))) .none) (by decide)) .none)
          (by decide)) .none,
      by decide⟩
  obtain ⟨restored, decided, -⟩ := returns_stand_in_functions ends
  obtain ⟨-, blockDecided, enclosed⟩ := returns_stand_in_functions blockEnds
  refine ⟨⟨ends, (restored (.construct .block) { depth := 2 }).1, ?_⟩, blockEnds, ?_⟩
  · exact (decided (by decide) (by decide) _ derived).2.2 8 []
      (by simp [Program.outline, Statement.outline, Outline.strayReturns])
  · obtain ⟨tree, made⟩ := (blockDecided (by decide) (by decide) _ blockDerived).1.mpr
      (by simp [Program.outline, Statement.outline, Outline.strayReturns])
    have evaluated : ∃ tree, inBlock.tree = .ok tree ∧ tree.tag? 2 = some .return :=
      ⟨_, by cbv, by cbv⟩
    obtain ⟨_, sameMade, isReturn⟩ := evaluated
    cases made.symm.trans sameMade
    obtain ⟨function, isFunction, below⟩ := enclosed tree made 2 isReturn
    exact ⟨tree, function, made, isReturn, isFunction, below⟩

end Stream

end Frontend
