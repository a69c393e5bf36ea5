import Frontend.Proofs.Grammar.Completeness
import Frontend.Proofs.Syntax.Outline

/-!
# Leaves

Identifiers and literals are the leaves of a phrase. A phrase that is derived by a
stretch of tokens has the identifiers and literals among these tokens as its leaves, in
their order. No token of the stretch ends the file, so a program has the leaves that
come before the first end.
-/

namespace Frontend
namespace Stream

variable {stream : Stream} {start middle stop : Nat}

/-- The leaf that the token at a place makes, if it makes one. -/
def leafAt? (stream : Stream) (place : Nat) : Option (Tag × TokenId) :=
  ((stream.kindAt? place).bind Parser.leafTag?).map (·, place)

/-- The tokens from `start` up to `stop` make these leaves, and none of them ends the
file. -/
structure Reads
    (stream : Stream)
    (start stop : Nat)
    (leaves : List (Tag × TokenId)) : Prop where
  le : start ≤ stop
  goesOn : ∀ place, start ≤ place -> place < stop -> stream.kindAt? place ≠ some .endOfFile
  leaves : (List.range' start (stop - start)).filterMap stream.leafAt? = leaves

namespace Reads

variable {first second : List (Tag × TokenId)}

theorem nil (stream : Stream) (start : Nat) : stream.Reads start start [] where
  le := Nat.le_refl start
  goesOn := by
    intro place above below
    omega
  leaves := by simp

theorem append
    (early : stream.Reads start middle first)
    (late : stream.Reads middle stop second) :
    stream.Reads start stop (first ++ second) where
  le := Nat.le_trans early.le late.le
  goesOn := by
    intro place above below
    by_cases before : place < middle
    · exact early.goesOn place above before
    · exact late.goesOn place (Nat.le_of_not_lt before) below
  leaves := by
    have split : List.range' start (stop - start) =
        List.range' start (middle - start) ++ List.range' middle (stop - middle) := by
      have earlyLe := early.le
      have lateLe := late.le
      obtain ⟨before, rfl⟩ := Nat.exists_eq_add_of_le earlyLe
      obtain ⟨after, rfl⟩ := Nat.exists_eq_add_of_le lateLe
      rw [Nat.add_assoc, Nat.add_sub_cancel_left, Nat.add_sub_cancel_left, ← Nat.add_assoc,
        Nat.add_sub_cancel_left, List.range'_append_1]
    rw [split, List.filterMap_append, early.leaves, late.leaves]

/-- A token that is no leaf goes before. -/
theorem cons
    {kind : Token.Kind}
    (present : stream.kindAt? start = some kind)
    (proper : kind ≠ .endOfFile)
    (silent : Parser.leafTag? kind = none)
    (rest : stream.Reads (start + 1) stop first) :
    stream.Reads start stop first := by
  suffices one : stream.Reads start (start + 1) [] from one.append rest
  refine ⟨Nat.le_succ start, fun place above below => ?_, ?_⟩
  · obtain rfl : place = start := Nat.le_antisymm (Nat.le_of_lt_succ below) above
    rw [present]
    exact fun same => proper (Option.some.inj same)
  · simp [leafAt?, present, silent]

/-- A token that is no leaf goes after. -/
theorem concat
    {kind : Token.Kind}
    (earlier : stream.Reads start stop first)
    (present : stream.kindAt? stop = some kind)
    (proper : kind ≠ .endOfFile)
    (silent : Parser.leafTag? kind = none) :
    stream.Reads start (stop + 1) first := by
  have all := earlier.append ((nil stream (stop + 1)).cons present proper silent)
  rwa [List.append_nil] at all

theorem leaf
    {kind : Token.Kind}
    {tag : Tag}
    (present : stream.kindAt? start = some kind)
    (found : Parser.leafTag? kind = some tag) :
    stream.Reads start (start + 1) [(tag, start)] where
  le := Nat.le_succ start
  goesOn := by
    intro place above below
    obtain rfl : place = start := Nat.le_antisymm (Nat.le_of_lt_succ below) above
    rw [present]
    rintro same
    cases Option.some.inj same
    cases found
  leaves := by simp [leafAt?, present, found]

theorem identifier (present : stream.kindAt? start = some .identifier) :
    stream.Reads start (start + 1) (Outline.leaf .identifier start).leaves := by
  rw [Outline.leaves_leaf rfl]
  exact leaf present rfl

end Reads

/-- Separated items have the leaves of each of them. -/
theorem AreSeparated.reads
    {Item : Type}
    {IsItem : Nat -> Nat -> Item -> Prop}
    (outline : Item -> Outline TokenId)
    (itemReads : ∀ {start stop item},
      IsItem start stop item -> stream.Reads start stop (outline item).leaves)
    {items : List Item}
    (separated : stream.AreSeparated IsItem start stop items) :
    stream.Reads start stop ((items.map outline).map Outline.leaves).flatten := by
  induction separated with
  | none => exact .nil stream _
  | last derived => simpa using itemReads derived
  | more derived commaAt _ restReads =>
      rw [List.map_cons, List.map_cons, List.flatten_cons]
      exact (itemReads derived).append (restReads.cons commaAt (by decide) rfl)

/-- The leaves of an expression are those of its tokens. -/
theorem IsExpression.reads
    {level : Power}
    {expression : Expression TokenId}
    (derived : stream.IsExpression level start stop expression) :
    stream.Reads start stop expression.outline.leaves := by
  induction derived using IsExpression.inductionOn with
  | identifier present =>
      rw [Expression.outline]
      exact .identifier present
  | literal present isLiteral =>
      rw [Expression.outline, Outline.leaves_leaf rfl]
      exact .leaf present (Parser.leafTag?_eq_some.mpr (.inr ⟨_, isLiteral, rfl⟩))
  | group opened _ closed inner =>
      exact (inner.cons opened (by decide) rfl).concat closed (by decide) rfl
  | call _ opened _ closed callee arguments =>
      rw [Expression.outline, Outline.leaves_node_of_not_isLeaf rfl, List.map_cons,
        List.flatten_cons]
      have inside := arguments.reads Expression.outline
        fun argument => (exists_prop.mp argument).2
      exact callee.append ((inside.concat closed (by decide) rfl).cons opened (by decide) rfl)
  | @unary _ _ operator _ present _ operand =>
      rw [Expression.outline, Outline.leaves_node_of_not_isLeaf rfl]
      simpa using operand.cons present (by cases operator <;> decide) (by cases operator <;> rfl)
  | @binary _ _ _ operator _ _ _ _ present _ _ left right =>
      rw [Expression.outline, Outline.leaves_node_of_not_isLeaf rfl]
      simpa using left.append
        (right.cons present (by cases operator <;> decide) (by cases operator <;> rfl))
  | ascend _ _ inner => exact inner

theorem IsWhole.reads
    {whole : Whole TokenId}
    (derived : stream.IsWhole start stop whole) :
    stream.Reads start stop whole.outline.leaves := by
  rw [Whole.outline, Outline.leaves_node_of_not_isLeaf rfl]
  simpa using derived.2.reads

theorem IsTerminator.reads
    (ended : stream.IsTerminator start stop) :
    stream.Reads start stop [] := by
  cases ended with
  | semicolon present => exact (Reads.nil stream _).cons present (by decide) rfl
  | brace => exact .nil stream _
  | endOfFile => exact .nil stream _

theorem IsName.reads
    {name : TokenId}
    (named : stream.IsName start stop name) :
    stream.Reads start stop (Outline.leaf .identifier name).leaves := by
  obtain ⟨rfl, rfl, present⟩ := named
  exact .identifier present

/-- The leaves of statements are those of their tokens. -/
theorem AreStatements.reads
    {inFunction : Bool}
    {statements : List (Statement TokenId)}
    (derived : stream.AreStatements inFunction start stop statements) :
    stream.Reads start stop
      ((statements.map Statement.outline).map Outline.leaves).flatten := by
  refine @AreStatements.rec stream
    (fun _ start stop statement _ => stream.Reads start stop statement.outline.leaves)
    (fun _ start stop statements _ => stream.Reads start stop
      ((statements.map Statement.outline).map Outline.leaves).flatten)
    ?binding ?block ?function ?return_ ?returnValue ?evaluate ?assign ?none ?skip ?more
    inFunction start stop statements derived
  case binding =>
    intro _ isConstant start valueStop stop value present named assigned valueDerived ended
    have value := (valueDerived.reads.cons assigned (by decide) rfl).append ended.reads
    rw [Statement.outline, Outline.leaves_node_of_not_isLeaf (by cases isConstant <;> rfl)]
    simpa using ((Reads.identifier named).append value).cons present
      (by cases isConstant <;> decide) (by cases isConstant <;> rfl)
  case block =>
    intro _ start stop statements opened _ closed inside
    rw [Statement.outline, Outline.leaves_node_of_not_isLeaf rfl]
    exact (inside.cons opened (by decide) rfl).concat closed (by decide) rfl
  case function =>
    intro _ start middle stop parameters body present named opened parametersDerived closed
      bodyOpened _ bodyClosed inside
    have block : stream.Reads (middle + 1) (stop + 1)
        (Outline.node (middle + 1) .block (body.map Statement.outline)).leaves := by
      rw [Outline.leaves_node_of_not_isLeaf rfl]
      exact (inside.cons bodyOpened (by decide) rfl).concat bodyClosed (by decide) rfl
    have names := (parametersDerived.reads (Outline.leaf .identifier)
      fun named => IsName.reads named).concat closed (by decide) rfl
    rw [Statement.outline, Outline.leaves_node_of_not_isLeaf rfl]
    simpa using ((Reads.identifier named).append
      ((names.append block).cons opened (by decide) rfl)).cons present (by decide) rfl
  case return_ =>
    intro start stop present ended
    rw [Statement.outline, Outline.leaves_node_of_not_isLeaf rfl]
    simpa using ended.reads.cons present (by decide) rfl
  case returnValue =>
    intro start valueStop stop value present valueDerived ended
    rw [Statement.outline, Outline.leaves_node_of_not_isLeaf rfl]
    simpa using (valueDerived.reads.append ended.reads).cons present (by decide) rfl
  case evaluate =>
    intro _ start valueStop stop value valueDerived ended
    rw [Statement.outline, Outline.leaves_node_of_not_isLeaf rfl]
    simpa using valueDerived.reads.append ended.reads
  case assign =>
    intro _ start place valueStop stop target value targetDerived assigned valueDerived ended
    rw [Statement.outline, Outline.leaves_node_of_not_isLeaf rfl]
    simpa using targetDerived.reads.append
      ((valueDerived.reads.append ended.reads).cons assigned (by decide) rfl)
  case none => exact fun {_ start} => .nil stream start
  case skip => exact fun present _ rest => rest.cons present (by decide) rfl
  case more =>
    intro _ _ _ _ statement statements _ _ first rest
    rw [List.map_cons, List.map_cons, List.flatten_cons]
    exact first.append rest

/-- The leaves of a program are those of the tokens before the first end of the file. -/
theorem Derives.exists_reads
    {program : Program TokenId}
    (derived : stream.Derives program) :
    ∃ stop, stream.kindAt? stop = some .endOfFile ∧
      stream.Reads 0 stop program.outline.leaves := by
  obtain ⟨-, stop, statementsDerived, ended⟩ := derived
  refine ⟨stop, ended, ?_⟩
  rw [Program.outline, Outline.leaves_node_of_not_isLeaf rfl]
  exact statementsDerived.reads

/-- The main token of a leaf that was read makes that leaf. -/
theorem Reads.leafTag?_of_mem
    {leaves : List (Tag × TokenId)}
    (reads : stream.Reads start stop leaves)
    {tag : Tag}
    {token : TokenId}
    (member : (tag, token) ∈ leaves) :
    (stream.kindAt? token).bind Parser.leafTag? = some tag := by
  rw [← reads.leaves, List.mem_filterMap] at member
  obtain ⟨place, -, found⟩ := member
  obtain ⟨other, made, same⟩ := Option.map_eq_some_iff.mp found
  cases same
  exact made

/-- The main token of a leaf of a program makes that leaf. -/
theorem Derives.exists_leaf
    {program : Program Mark}
    (derived : stream.Derives (program.map Mark.token))
    {tag : Tag}
    {mark : Mark}
    (isLeaf : (tag, mark) ∈ program.outline.leaves) :
    ∃ token, stream.tokens[mark.token]? = some token ∧
      Parser.leafTag? token.kind = some tag := by
  obtain ⟨stop, -, reads⟩ := derived.exists_reads
  have isRead : (tag, mark.token) ∈ (program.map Mark.token).outline.leaves := by
    rw [Program.outline_map, Outline.leaves_map]
    exact List.mem_map_of_mem isLeaf
  obtain ⟨kind, kindAt, leafTag⟩ := Option.bind_eq_some_iff.mp (reads.leafTag?_of_mem isRead)
  obtain ⟨token, tokenAt, rfl⟩ := Option.map_eq_some_iff.mp kindAt
  exact ⟨token, tokenAt, leafTag⟩

/-- The main token of an identifier of a program is an identifier. -/
theorem Derives.exists_identifier
    {program : Program Mark}
    (derived : stream.Derives (program.map Mark.token))
    {mark : Mark}
    (isLeaf : (.identifier, mark) ∈ program.outline.leaves) :
    ∃ token, stream.tokens[mark.token]? = some token ∧ token.kind = .identifier := by
  obtain ⟨token, tokenAt, leafTag⟩ := derived.exists_leaf isLeaf
  refine ⟨token, tokenAt, ?_⟩
  rcases Parser.leafTag?_eq_some.mp leafTag with ⟨same, -⟩ | ⟨base, -, different⟩
  · exact same
  · cases different

/-- Leaves are read in the order of their tokens. -/
theorem Reads.pairwise
    {leaves : List (Tag × TokenId)}
    (reads : stream.Reads start stop leaves) :
    leaves.Pairwise fun first second => first.2 < second.2 := by
  rw [← reads.leaves, List.pairwise_filterMap]
  refine (List.pairwise_lt_range' 1).imp fun before first firstMade second secondMade => ?_
  obtain ⟨_, -, rfl⟩ := Option.map_eq_some_iff.mp firstMade
  obtain ⟨_, -, rfl⟩ := Option.map_eq_some_iff.mp secondMade
  exact before

end Stream
end Frontend
