import Frontend.Proofs.Analysis.Pointing
import Frontend.Proofs.Grammar.Parallel
import Frontend.Proofs.Grammar.Unfinished
import Frontend.Proofs.Types.Renaming

/-!
# Analysis does not depend on the choice of identifiers

Identifiers are only compared with each other. If all of them are renamed, and different
ones stay different, then a stream is read in the same way, and the names and the types of
its tree are found in the same way. Only diagnostics quote the identifiers.
-/

namespace Frontend

/-! ## Reading renamed tokens -/

namespace Stream

/-- Change the values of all identifiers. -/
def rename (change : String -> String) (stream : Stream) : Stream :=
  { stream with tokens := stream.tokens.map (Token.rename change) }

/-- The texts are the values of the token at the place, before and after the renaming. -/
def Requotes
    (change : String -> String)
    (stream : Stream)
    (place : Nat)
    (text twin : String) : Prop :=
  ∃ token, stream.tokens[place]? = some token ∧
    text = token.value ∧ twin = (token.rename change).value

/-- The readings of a stream and of the renamed one end with the same fault, or with
diagnostics about the same token, which differ only in that each quotes its own value of
it. -/
inductive FailsAlike
    (change : String -> String)
    (stream : Stream) :
    Stop Diagnostic -> Stop Diagnostic -> Prop
  | failed
      {place : Nat}
      {diagnostic twin : Diagnostic}
      (blames : stream.Blames place diagnostic)
      (alike : diagnostic.Alike (stream.Requotes change place) twin) :
      FailsAlike change stream (.failed diagnostic) (.failed twin)
  | fault (fault : Fault) : FailsAlike change stream (.fault fault) (.fault fault)

/-- The readings of a stream and of the renamed one are compared at all places, whatever
they quote. -/
def besideRenamed : Comparison where
  Inside _ := True
  Quotes _ _ := True
  Ignores _ _ := False
  downward _ _ := trivial

theorem hasValue_rename (change : String -> String) (token : Token) :
    Parser.hasValue token = Parser.hasValue (token.rename change) := by
  unfold Token.rename
  split
  next isIdentifier => simp [Parser.hasValue, isIdentifier]
  next => rfl

theorem alike_rename (change : String -> String) (token : Token) :
    token.Alike besideRenamed.Quotes (token.rename change) where
  kind := (token.kind_rename change).symm
  hasValue := hasValue_rename change token
  quotes := trivial

theorem fits_besideRenamed
    (change : String -> String)
    {stream : Stream}
    (nonempty : 0 < stream.tokens.size) :
    besideRenamed.Fits stream (stream.rename change) := by
  have sameAhead : ∀ place, (stream.rename change).ahead place = stream.ahead place := by
    simp [ahead, rename]
  refine ⟨nonempty, .inl (by simp [rename]), ?_, ?_⟩
  · exact fun token _ => ⟨token.rename change, alike_rename change token⟩
  · intro place _
    have present := Array.getElem?_eq_getElem (stream.ahead_lt nonempty place)
    refine ⟨sameAhead place, _, (_ : Token).rename change, present, ?_, alike_rename change _,
      .inl ?_⟩
    · simp only [rename, Array.getElem?_map, present, Option.map_some]
    · rw [Token.span_rename]
      rfl

theorem Ends.rename
    {stream : Stream}
    (ends : stream.Ends)
    (change : String -> String) :
    (stream.rename change).Ends := by
  have sameKind : ∀ place, (stream.rename change).kindAt? place = stream.kindAt? place := by
    intro place
    simp [kindAt?, Stream.rename, Function.comp_def, Token.kind_rename]
  have sameSize : (stream.rename change).tokens.size = stream.tokens.size := Array.size_map
  exact ⟨sameSize ▸ ends.nonempty, by rw [sameKind, sameSize, ends.last]⟩

/-- Diagnostics of both readings about the token at one place quote the values of this
token. -/
theorem Blames.alike_rename
    {change : String -> String}
    {stream : Stream}
    {place : Nat}
    {diagnostic twin : Diagnostic}
    (blames : stream.Blames place diagnostic)
    (twinBlames : (stream.rename change).Blames place twin)
    (alike : diagnostic.Alike besideRenamed.Quotes twin) :
    diagnostic.Alike (stream.Requotes change place) twin := by
  obtain ⟨cause, location⟩ := diagnostic
  obtain ⟨twinCause, twinLocation⟩ := twin
  obtain ⟨token, present, quoted, -⟩ := blames
  obtain ⟨twinToken, twinPresent, twinQuoted, -⟩ := twinBlames
  obtain ⟨sameSort, sameLocation⟩ := alike
  simp only [Stream.rename, Array.getElem?_map, present, Option.map_some, Option.some.injEq]
    at twinPresent
  subst twinPresent
  refine ⟨?_, sameLocation⟩
  cases sameSort with
  | unexpected =>
      exact .unexpected ⟨token, present, Option.some.inj quoted, Option.some.inj twinQuoted⟩
  | misplaced _ reason =>
      exact .misplaced ⟨token, present, Option.some.inj quoted, Option.some.inj twinQuoted⟩
        reason
  | badNumeral =>
      exact .badNumeral ⟨token, present, Option.some.inj quoted, Option.some.inj twinQuoted⟩

/-- A stream and the renamed one have the same tree, up to its tokens, or fail alike. -/
theorem tree_rename
    (change : String -> String)
    {stream : Stream}
    (ends : stream.Ends) :
    (∃ tree, stream.tree = .ok tree ∧
        (stream.rename change).tree = .ok (tree.rename change)) ∨
      ∃ stop twin, stream.tree = .error stop ∧ (stream.rename change).tree = .error twin ∧
        stream.FailsAlike change stop twin := by
  have same :=
    ((fits_besideRenamed change ends.nonempty).mirrors_program .standard {}).same trivial
  unfold Stream.tree
  generalize read : Parser.program .standard stream {} = result at same ⊢
  generalize twinRead : Parser.program .standard (stream.rename change) {} = twinResult
    at same ⊢
  cases same with
  | ok _ after => exact .inl ⟨_, rfl, rfl⟩
  | error alike after =>
      refine .inr ⟨_, _, rfl, rfl, ?_⟩
      cases alike with
      | failed alike =>
          -- Both readings have ended at the same place, which their diagnostics are about.
          have blames := (Parser.fails_program ends _ after read).blames
          have twinBlames := (Parser.fails_program (ends.rename change) _ after twinRead).blames
          exact .failed blames (blames.alike_rename twinBlames alike)
      | fault fault => exact .fault fault
  | fault ignored => exact ignored.elim

/-- The names in the tree of a stream are identifiers of the stream. -/
theorem namesIdentifiers_of_tree
    {stream : Stream}
    (ends : stream.Ends)
    {tree : Tree}
    (made : stream.tree = .ok tree) :
    tree.NamesIdentifiers := by
  obtain ⟨program, represents, derived⟩ := stream.exists_represents ends made
  obtain ⟨_, _, _, _, rfl⟩ := (tree_eq_ok ends).mp made
  intro id isName
  obtain ⟨mark, isLeaf, rfl, left, right, present⟩ := represents.exists_identifier isName
  obtain ⟨token, tokenPresent, isIdentifier⟩ := derived.exists_identifier isLeaf
  exact ⟨_, token, present, tokenPresent, isIdentifier⟩

end Stream

/-! ## The analysis of renamed trees -/

/-- The analysis of the two trees finds the same declarations, usages and types. What it
reports of names differs in the identifiers that are quoted, and what it reports of types
is the same. -/
def Tree.AnalysedAlike (change : String -> String) (tree other : Tree) : Prop :=
  SameResult
    (fun resolution twin =>
      twin.diagnostics = resolution.diagnostics.map (Diagnostic.rename change) ∧
        SameResult
          (fun names twinNames =>
            twinNames.declarations = names.declarations ∧ twinNames.usages = names.usages ∧
              SameResult
                (fun inference twinInference =>
                  twinInference.diagnostics = inference.diagnostics ∧
                    SameResult TypeTable.Alike inference.table twinInference.table)
                (tree.inference names) (other.inference twinNames))
          (resolution.names tree) (twin.names other))
    tree.resolution other.resolution

theorem Tree.NamesIdentifiers.analysedAlike
    {tree : Tree}
    (named : tree.NamesIdentifiers)
    {change : String -> String}
    (injective : Function.Injective change) :
    tree.AnalysedAlike change (tree.rename change) := by
  have resembles := named.resembles injective
  unfold AnalysedAlike Tree.resolution
  rw [events_rename]
  refine SameResult.bind (SameResult.refl tree.events) ?_
  rintro events _ rfl
  refine (resembles.foldlM fun _ _ => trivial).mono ?_
  rintro resolution _ ⟨rfl, binds⟩
  refine ⟨rfl, (resembles.names binds).mono ?_⟩
  intro names twinNames respelled
  refine ⟨respelled.declarations, respelled.usages, respelled.inference.mono ?_⟩
  exact fun _ _ twins => ⟨twins.diagnostics, twins.table⟩

namespace Stream

/-- What is found in a stream does not depend on its identifiers, but only on which of them
are the same. -/
theorem analysis_respects_renaming
    (stream : Stream)
    (ends : stream.Ends)
    (change : String -> String)
    (injective : Function.Injective change) :
    (∃ stop twin, stream.tree = .error stop ∧ (stream.rename change).tree = .error twin ∧
        stream.FailsAlike change stop twin) ∨
      ∃ tree other, stream.tree = .ok tree ∧ (stream.rename change).tree = .ok other ∧
        other.nodes = tree.nodes ∧ other.extra = tree.extra ∧
        tree.AnalysedAlike change other ∧
        (stream.HasLocations -> tree.nodes.size ≤ Node.absent ->
          ∀ report, ∃ analysis, tree.analyze report = .ok analysis) := by
  rcases tree_rename change ends with ⟨tree, made, twinMade⟩ | failed
  · refine .inr ⟨tree, tree.rename change, made, twinMade, rfl, rfl, ?_, ?_⟩
    · exact (namesIdentifiers_of_tree ends made).analysedAlike injective
    · intro located small report
      obtain ⟨program, -, legible⟩ := exists_legible ends located made small
      obtain ⟨_, _, _, _, -, -, -, -, analysed⟩ := legible.exists_analyze report
      exact ⟨_, analysed⟩
  · exact .inl failed

/-- The tokens of `var a = b; var c = a; var a = !1`, where the text of the second name
looks like the qualified name of the first one. -/
def lookalike : Stream where
  source := Source.ofText "" none
  tokens :=
    #[⟨.varWord, "var", ⟨0, 3⟩⟩,
      ⟨.identifier, "a", ⟨4, 5⟩⟩,
      ⟨.assignment, "=", ⟨6, 7⟩⟩,
      ⟨.identifier, "b", ⟨8, 9⟩⟩,
      ⟨.semicolon, ";", ⟨9, 10⟩⟩,
      ⟨.varWord, "var", ⟨11, 14⟩⟩,
      ⟨.identifier, "0::a#1", ⟨15, 21⟩⟩,
      ⟨.assignment, "=", ⟨22, 23⟩⟩,
      ⟨.identifier, "a", ⟨24, 25⟩⟩,
      ⟨.semicolon, ";", ⟨25, 26⟩⟩,
      ⟨.varWord, "var", ⟨27, 30⟩⟩,
      ⟨.identifier, "a", ⟨31, 32⟩⟩,
      ⟨.assignment, "=", ⟨33, 34⟩⟩,
      ⟨.not, "!", ⟨35, 36⟩⟩,
      ⟨.int, "1", ⟨36, 37⟩⟩,
      ⟨.endOfFile, "EOF", ⟨37, 37⟩⟩]

/-- What is wrong with these tokens, if a mark is added to every identifier. -/
def mistakes (mark : String) : Array Diagnostic :=
  #[⟨.undeclared ("b" ++ mark), ⟨1, 9, "shell"⟩⟩,
    ⟨.redeclared ("a" ++ mark), ⟨1, 32, "shell"⟩⟩,
    ⟨.mismatch "int" "bool", ⟨1, 36, "shell"⟩⟩]

/-- The tokens of `a b`. -/
def juxtaposed : Stream where
  source := Source.ofText "" none
  tokens :=
    #[⟨.identifier, "a", ⟨0, 1⟩⟩, ⟨.identifier, "b", ⟨2, 3⟩⟩, ⟨.endOfFile, "EOF", ⟨3, 3⟩⟩]

/-- Where reading them stops, if a mark is added to every identifier. -/
def stray (mark : String) : Stop Diagnostic :=
  .failed ⟨.misplaced ("b" ++ mark) "expected `;` or a newline", ⟨1, 3, "shell"⟩⟩

theorem analysis_respects_renaming_lookalike :
    Function.Injective (· ++ "#1") ∧ lookalike.Ends ∧ juxtaposed.Ends ∧
      (∃ tree other, lookalike.tree = .ok tree ∧
        (lookalike.rename (· ++ "#1")).tree = .ok other ∧
        other.nodes = tree.nodes ∧ other.extra = tree.extra ∧
        tree.AnalysedAlike (· ++ "#1") other ∧
        (tree.analyze (.empty 10)).map (·.2.diagnostics) = .ok (mistakes "") ∧
        (other.analyze (.empty 10)).map (·.2.diagnostics) = .ok (mistakes "#1")) ∧
      juxtaposed.tree = .error (stray "") ∧
      (juxtaposed.rename (· ++ "#1")).tree = .error (stray "#1") ∧
      juxtaposed.FailsAlike (· ++ "#1") (stray "") (stray "#1") := by
  have injective : Function.Injective (fun text : String => text ++ "#1") :=
    fun _ _ same => (String.append_left_inj "#1").mp same
  have ends : lookalike.Ends := by decide
  have strayEnds : juxtaposed.Ends := by decide
  have stops : juxtaposed.tree = .error (stray "") := by cbv
  have twinStops : (juxtaposed.rename (· ++ "#1")).tree = .error (stray "#1") := by cbv
  refine ⟨injective, ends, strayEnds, ?_, stops, twinStops, ?_⟩
  · obtain ⟨_, _, made, twinMade, reported, twinReported⟩ :
        ∃ tree other, lookalike.tree = .ok tree ∧
          (lookalike.rename (· ++ "#1")).tree = .ok other ∧
          (tree.analyze (.empty 10)).map (·.2.diagnostics) = .ok (mistakes "") ∧
          (other.analyze (.empty 10)).map (·.2.diagnostics) = .ok (mistakes "#1") := by
      refine ⟨_, _, by cbv, by cbv, ?_, ?_⟩ <;> cbv
    rcases analysis_respects_renaming lookalike ends _ injective with
      ⟨_, _, failed, -⟩ | ⟨_, _, sameMade, sameTwinMade, nodes, extra, alike, -⟩
    · cases made.symm.trans failed
    · cases made.symm.trans sameMade
      cases twinMade.symm.trans sameTwinMade
      exact ⟨_, _, made, twinMade, nodes, extra, alike, reported, twinReported⟩
  · rcases analysis_respects_renaming juxtaposed strayEnds _ injective with
      ⟨_, _, sameStops, sameTwinStops, alike⟩ | ⟨_, _, made, -⟩
    · cases stops.symm.trans sameStops
      cases twinStops.symm.trans sameTwinStops
      exact alike
    · cases stops.symm.trans made

end Stream

end Frontend
