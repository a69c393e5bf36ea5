import Frontend.Analysis
import Frontend.Proofs.Grammar.Exact
import Frontend.Proofs.Syntax.Walk
import Frontend.Proofs.Token.Lexemes

/-!
# Legible trees

The tokens of a source make a stream that ends once, and each of them starts inside
the text. So the tree of a source represents a program, and every node of it has a
main token that can be read and located, as long as columns and nodes are numbered
by words.
-/

namespace Frontend

/-! ## Streams of sources -/

theorem LineIndex.placeFrom_le
    (offset line start : Nat)
    (starts : List Nat) :
    (placeFrom offset line start starts).2 ≤ offset + 1 := by
  induction starts generalizing line start with
  | nil => simp [placeFrom]
  | cons next later ih =>
      rw [placeFrom]
      split
      · exact ih (line + 1) next
      · simp

/-- No column is beyond the offset. -/
theorem Source.column_place_le (source : Source) (offset : Nat) :
    (source.place offset).column ≤ offset + 1 :=
  LineIndex.placeFrom_le offset 0 0 source.lines.starts

namespace Source

variable {source : Source} {stream : Stream}

/-- A stream of a source holds what was scanned. -/
theorem exists_scan (made : source.stream = .ok stream) :
    ∃ tokens,
      Token.scan false 0 source.text.toList = .ok tokens ∧
        stream = { source, tokens := tokens.toArray } := by
  obtain ⟨tokens, scanned, made⟩ := exists_of_bind_eq_ok made
  cases made
  refine ⟨tokens, ?_, rfl⟩
  rw [Source.tokens] at scanned
  split at scanned
  next found =>
    cases scanned
    exact found
  next => cases scanned

/-- The tree of a source is the tree of its stream. -/
theorem exists_stream_of_tree {tree : Tree} (made : source.tree = .ok tree) :
    ∃ stream, source.stream = .ok stream ∧ stream.tree = .ok tree := by
  unfold Source.tree at made
  split at made
  next stream streamMade => exact ⟨stream, streamMade, made⟩
  next => cases made

theorem stream_eq_ok (made : source.stream = .ok stream) :
    ∃ tokens,
      Token.AreInside 0 source.text.toList tokens ∧
        stream = { source, tokens := tokens.toArray } := by
  obtain ⟨tokens, scanned, rfl⟩ := exists_scan made
  exact ⟨tokens, Token.areInside_of_scan scanned, rfl⟩

/-- The stream of a source ends once. -/
theorem endsOnce_of_stream (made : source.stream = .ok stream) : stream.EndsOnce := by
  obtain ⟨tokens, ⟨earlier, rfl, inside⟩, rfl⟩ := stream_eq_ok made
  refine ⟨by simp, fun place => ?_⟩
  simp only [Stream.kindAt?, List.getElem?_toArray, List.size_toArray,
    List.length_append, List.length_singleton]
  by_cases before : place < earlier.length
  · have proper := (inside earlier[place] (List.getElem_mem before)).1
    rw [List.getElem?_append_left before, List.getElem?_eq_getElem before]
    simp only [Option.map_some, Option.some.injEq, proper, false_iff]
    omega
  · rw [List.getElem?_append_right (Nat.le_of_not_lt before)]
    by_cases last : place - earlier.length = 0
    · rw [last]
      simp only [List.getElem?_cons_zero, Option.map_some, Token.endOfFile, true_iff]
      omega
    · obtain ⟨beyond, same⟩ := Nat.exists_eq_succ_of_ne_zero last
      rw [same]
      simp only [Nat.succ_eq_add_one, List.getElem?_cons_succ, List.getElem?_nil,
        Option.map_none, reduceCtorEq, false_iff]
      omega

/-- The tokens of a source start inside its text. -/
theorem start_le_of_mem
    (made : source.stream = .ok stream)
    {token : Token}
    (member : token ∈ stream.tokens) :
    token.span.start ≤ source.text.utf8ByteSize := by
  obtain ⟨tokens, ⟨earlier, rfl, inside⟩, rfl⟩ := stream_eq_ok made
  rw [Nat.zero_add, Token.byteLength_toList] at inside
  rw [List.mem_toArray, List.mem_append, List.mem_singleton] at member
  rcases member with member | rfl
  · exact (inside token member).2
  · simp [Token.endOfFile, Token.byteLength_toList]

/-- The columns of a text that is short enough fit into words. -/
theorem hasLocations_of_stream
    (made : source.stream = .ok stream)
    (short : source.text.utf8ByteSize + 1 < wordSize) :
    stream.HasLocations := by
  intro token member
  have started := start_le_of_mem made member
  have column := source.column_place_le token.span.start
  have sameSource : stream.source = source := by
    obtain ⟨_, -, rfl⟩ := stream_eq_ok made
    rfl
  rw [sameSource]
  exact Nat.lt_of_le_of_lt (Nat.le_trans column (Nat.succ_le_succ started)) short

end Source

/-! ## The tokens of a derived program -/

namespace Stream

variable {stream : Stream} {start stop : Nat}

/-- Each separated item is derived somewhere. -/
theorem AreSeparated.exists_of_mem
    {Item : Type}
    {IsItem : Nat -> Nat -> Item -> Prop}
    {items : List Item}
    (separated : stream.AreSeparated IsItem start stop items)
    {item : Item}
    (member : item ∈ items) :
    ∃ first last, IsItem first last item := by
  induction separated with
  | none => cases member
  | last derived =>
      cases List.mem_singleton.mp member
      exact ⟨_, _, derived⟩
  | more derived _ _ ih =>
      rcases List.mem_cons.mp member with rfl | member
      · exact ⟨_, _, derived⟩
      · exact ih member

/-- The main tokens of an expression are tokens of the stream. -/
theorem IsExpression.lt_size
    {level : Power}
    {expression : Expression TokenId}
    (derived : stream.IsExpression level start stop expression) :
    ∀ token ∈ expression.labels, token < stream.tokens.size := by
  induction derived using IsExpression.inductionOn with
  | identifier present => simpa [Expression.labels] using lt_size_of_kindAt? present
  | literal present => simpa [Expression.labels] using lt_size_of_kindAt? present
  | group _ _ _ inside => exact inside
  | call _ opened _ _ calleeInside argumentsInside =>
      rw [Expression.labels, List.forall_mem_append, List.forall_mem_append]
      refine ⟨⟨calleeInside, ?_⟩, by simpa using lt_size_of_kindAt? opened⟩
      intro token member
      obtain ⟨_, listed, member⟩ := List.mem_flatten.mp member
      obtain ⟨argument, argumentMember, rfl⟩ := List.mem_map.mp listed
      obtain ⟨_, _, _, inside⟩ := argumentsInside.exists_of_mem argumentMember
      exact inside token member
  | unary present _ inside =>
      rw [Expression.labels, List.forall_mem_append]
      exact ⟨inside, by simpa using lt_size_of_kindAt? present⟩
  | binary _ present _ _ leftInside rightInside =>
      rw [Expression.labels, List.forall_mem_append, List.forall_mem_append]
      exact ⟨⟨leftInside, rightInside⟩, by simpa using lt_size_of_kindAt? present⟩
  | ascend _ _ inside => exact inside

theorem IsWhole.lt_size
    {whole : Whole TokenId}
    (derived : stream.IsWhole start stop whole) :
    start < stream.tokens.size ∧ ∀ token ∈ whole.labels, token < stream.tokens.size := by
  obtain ⟨first, innerDerived⟩ := derived
  obtain ⟨_, _, present, -⟩ := innerDerived.exists_operand
  have started : start < stream.tokens.size := lt_size_of_kindAt? present
  rw [Whole.labels, List.forall_mem_append, first]
  exact ⟨started, innerDerived.lt_size, by simpa using started⟩

/-- The main tokens of statements are tokens of the stream. -/
theorem AreStatements.lt_size
    {inFunction : Bool}
    {statements : List (Statement TokenId)}
    (derived : stream.AreStatements inFunction start stop statements) :
    ∀ token ∈ (statements.map Statement.labels).flatten, token < stream.tokens.size := by
  refine @AreStatements.rec stream
    (fun _ _ _ statement _ => ∀ token ∈ statement.labels, token < stream.tokens.size)
    (fun _ _ _ statements _ => ∀ token ∈ (statements.map Statement.labels).flatten,
      token < stream.tokens.size)
    ?binding ?block ?function ?return_ ?returnValue ?evaluate ?assign ?none ?skip ?more
    inFunction start stop statements derived
  case binding =>
    intro _ _ start _ _ value present named _ valueDerived _
    rw [Statement.labels, List.forall_mem_append, List.forall_mem_cons]
    exact ⟨⟨lt_size_of_kindAt? named, valueDerived.lt_size.2⟩,
      by simpa using lt_size_of_kindAt? present⟩
  case block =>
    intro _ start _ statements opened _ _ inside
    rw [Statement.labels, List.forall_mem_append]
    exact ⟨inside, by simpa using lt_size_of_kindAt? opened⟩
  case function =>
    intro _ start middle stop parameters body present named _ parametersDerived _ bodyOpened
      _ _ inside
    rw [Statement.labels, List.forall_mem_append, List.forall_mem_append,
      List.forall_mem_append, List.forall_mem_cons]
    refine ⟨⟨⟨lt_size_of_kindAt? named, fun parameter member => ?_⟩, inside,
      by simpa using lt_size_of_kindAt? bodyOpened⟩,
      by simpa using lt_size_of_kindAt? present⟩
    obtain ⟨_, _, rfl, _, isIdentifier⟩ := parametersDerived.exists_of_mem member
    exact lt_size_of_kindAt? isIdentifier
  case return_ =>
    intro start _ present _
    simpa [Statement.labels] using lt_size_of_kindAt? present
  case returnValue =>
    intro start _ _ value present valueDerived _
    rw [Statement.labels, List.forall_mem_append]
    exact ⟨valueDerived.lt_size.2, by simpa using lt_size_of_kindAt? present⟩
  case evaluate =>
    intro _ start _ _ value valueDerived _
    rw [Statement.labels, List.forall_mem_append]
    exact ⟨valueDerived.lt_size.2, by simpa using valueDerived.lt_size.1⟩
  case assign =>
    intro _ start place _ _ target value targetDerived assigned valueDerived _
    rw [Statement.labels, List.forall_mem_append, List.forall_mem_append]
    exact ⟨⟨targetDerived.lt_size.2, valueDerived.lt_size.2⟩,
      by simpa using lt_size_of_kindAt? assigned⟩
  case none => simp
  case skip => exact fun _ _ inside => inside
  case more =>
    intro _ _ _ _ statement statements _ _ first rest
    rw [List.map_cons, List.flatten_cons, List.forall_mem_append]
    exact ⟨first, rest⟩

/-- The main tokens of a program are tokens of the stream. -/
theorem Derives.lt_size
    (ends : stream.Ends)
    {program : Program TokenId}
    (derived : stream.Derives program) :
    ∀ token ∈ program.labels, token < stream.tokens.size := by
  obtain ⟨first, stop, statementsDerived, -⟩ := derived
  rw [Program.labels, List.forall_mem_cons, first]
  exact ⟨ends.nonempty, statementsDerived.lt_size⟩

end Stream

/-! ## Reading what a mark says -/

namespace Tree

variable (tree : Tree)

/-- The columns of the text and the nodes of the tree are numbered by words. The last
word stands for an absent value. -/
structure Addressable : Prop where
  columns : tree.source.text.utf8ByteSize + 1 < Source.wordSize
  nodes : tree.nodes.size ≤ Node.absent

/-- The value of the main token of a mark. -/
def lexeme (mark : Mark) : String :=
  (tree.tokens[mark.token]?.map Token.value).getD ""

/-- The location of the main token of a mark. -/
def placeOf (mark : Mark) : Location :=
  tree.source.place ((tree.tokens[mark.token]?.map (·.span.start)).getD 0)

/-- The main token of the mark is there and has a location. -/
def Locates (mark : Mark) : Prop :=
  ∃ token, tree.tokens[mark.token]? = some token ∧
    (tree.source.place token.span.start).column < Source.wordSize

/-- The tree represents the program, and every node of it can be located. -/
structure Legible (program : Program Mark) : Prop where
  represents : tree.Represents program
  small : tree.nodes.size ≤ Node.absent
  located : ∀ mark ∈ program.labels, tree.Locates mark

variable {tree} {mark : Mark} {tag : Tag} {left right : Nat}

theorem Locates.text_eq_ok
    (located : tree.Locates mark)
    (present : tree.nodes[mark.node]? = some ⟨tag, mark.token, left, right⟩) :
    tree.text mark.node = .ok (tree.lexeme mark) := by
  obtain ⟨token, tokenPresent, -⟩ := located
  simp only [text, node_eq_ok present, Tree.token, tokenPresent, lexeme, bind, Except.bind]
  rfl

theorem Locates.location_eq_ok
    (located : tree.Locates mark)
    (present : tree.nodes[mark.node]? = some ⟨tag, mark.token, left, right⟩) :
    tree.location mark.node = .ok (tree.placeOf mark) := by
  obtain ⟨token, tokenPresent, fits⟩ := located
  simp only [location, node_eq_ok present, Tree.token, tokenPresent, placeOf, bind,
    Except.bind]
  exact Source.locate_eq_ok fits

end Tree

/-- The nodes of a derived program can be located if the tokens can. -/
theorem Stream.legible
    {stream : Stream}
    {tree : Tree}
    {program : Program Mark}
    (ends : stream.Ends)
    (located : stream.HasLocations)
    (made : stream.tree = .ok tree)
    (represents : tree.Represents program)
    (derived : stream.Derives (program.map Mark.token))
    (small : tree.nodes.size ≤ Node.absent) :
    tree.Legible program := by
  refine ⟨represents, small, ?_⟩
  obtain ⟨_, _, _, _, rfl⟩ := (Stream.tree_eq_ok ends).mp made
  intro mark member
  have inside : mark.token < stream.tokens.size := by
    apply derived.lt_size ends
    rw [Program.labels_map]
    exact List.mem_map_of_mem member
  exact ⟨stream.tokens[mark.token], Array.getElem?_eq_getElem inside,
    located _ (Array.getElem_mem inside)⟩

/-- The tree of a stream with locations represents the program that the stream derives. -/
theorem Stream.exists_legible
    {stream : Stream}
    {tree : Tree}
    (ends : stream.Ends)
    (located : stream.HasLocations)
    (made : stream.tree = .ok tree)
    (small : tree.nodes.size ≤ Node.absent) :
    ∃ program, stream.Derives (program.map Mark.token) ∧ tree.Legible program := by
  obtain ⟨program, represents, derived⟩ := stream.exists_represents ends made
  exact ⟨program, derived, Stream.legible ends located made represents derived small⟩

/-- The tree of a source represents the program that its tokens derive. -/
theorem Source.exists_legible
    {source : Source}
    {tree : Tree}
    (made : source.tree = .ok tree)
    (addressable : tree.Addressable) :
    ∃ stream program,
      source.stream = .ok stream ∧ stream.Derives (program.map Mark.token) ∧
        tree.Legible program := by
  obtain ⟨stream, streamMade, made⟩ := exists_stream_of_tree made
  have ends := endsOnce_of_stream streamMade
  have sameSource : tree.source = source := by
    obtain ⟨tokens, -, rfl⟩ := stream_eq_ok streamMade
    obtain ⟨_, _, _, _, rfl⟩ := (Stream.tree_eq_ok ends).mp made
    rfl
  have short := addressable.columns
  rw [sameSource] at short
  obtain ⟨program, derived, legible⟩ :=
    Stream.exists_legible ends (hasLocations_of_stream streamMade short) made addressable.nodes
  exact ⟨stream, program, streamMade, derived, legible⟩

end Frontend
