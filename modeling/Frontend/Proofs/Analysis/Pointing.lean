import Frontend.Proofs.Analysis.Totality
import Frontend.Proofs.Grammar.Leaves
import Frontend.Proofs.Grammar.Legible
import Frontend.Proofs.Scope.Steps
import Frontend.Proofs.Source.Place
import Frontend.Proofs.Token.Standing
import Frontend.Proofs.Types.Steps

/-!
# Diagnostics that point at the text

A diagnostic that quotes a character or an identifier gives the place where it stands:
the line of that number goes on from the column with the quoted text. An identifier is
quoted whole.
-/

namespace Frontend

/-- What a diagnostic quotes stands in the text at its location. An identifier is a word
that does not go on after it. -/
def Diagnostic.PointsAt (source : Source) (diagnostic : Diagnostic) : Prop :=
  match diagnostic.cause with
  | .unrecognised token => source.Shows diagnostic.location token fun _ => True
  | .undeclared identifier | .redeclared identifier =>
      Token.Rule.IsWord identifier.toList ∧
        source.Shows diagnostic.location identifier fun rest =>
          ∀ next ∈ rest.head?, Token.Rule.continuesWord next = false
  | .unexpected _ | .misplaced _ _ | .badNumeral _ | .mismatch _ _ => True

/-! ## What is shown -/

namespace Source

variable {source : Source}

theorem Shows.mono
    {location : Location}
    {quoted : String}
    {Follows Others : List Char -> Prop}
    (shows : source.Shows location quoted Follows)
    (weaker : ∀ rest, Follows rest -> Others rest) :
    source.Shows location quoted Others := by
  obtain ⟨line, rest, found, positive, inside, dropped, follows⟩ := shows
  exact ⟨line, rest, found, positive, inside, dropped, weaker rest follows⟩

/-- The place of a word shows the whole word. -/
theorem shows_word
    {offset : Nat}
    {word : String}
    (isWord : Token.IsWordAt source.text.toList offset word.toList) :
    source.Shows (source.place offset) word fun rest =>
      ∀ next ∈ rest.head?, Token.Rule.continuesWord next = false := by
  obtain ⟨before, after, split, rfl, spelled, ended⟩ := isWord
  have continues := spelled.continues
  obtain ⟨first, last, same⟩ : ∃ first last, word.toList = first ++ [last] := by
    obtain ⟨character, more, cons, -, -⟩ := spelled
    exact ⟨_, _, (List.dropLast_append_getLast (by simp [cons])).symm⟩
  rw [same] at split continues
  have shows := shows_place split
    (fun newline => absurd (continues '\n' newline) (by decide))
    (fun same => absurd (continues last (by simp)) (by rw [same]; decide))
  rw [← same, String.ofList_toList] at shows
  refine shows.mono fun rest isPart next isNext => ended next ?_
  -- What follows on the line is the beginning of what follows in the text.
  obtain ⟨more, joined⟩ := isPart.trans (List.takeWhile_prefix _)
  rw [← joined, List.head?_append, Option.mem_def.mp isNext]
  rfl

/-- The place at which scanning gives up shows the character there. -/
theorem pointsAt_of_tokens
    {diagnostic : Diagnostic}
    (scanned : source.tokens = .error diagnostic) :
    diagnostic.PointsAt source := by
  unfold tokens at scanned
  split at scanned
  next => cases scanned
  next unrecognised failed =>
    cases scanned
    obtain ⟨before, after, split, start, never⟩ := Token.exists_of_scan_eq_error failed
    obtain ⟨notNewline, notReturn⟩ := Token.Rule.ne_of_first?_eq_none never
    rw [Nat.zero_add] at start
    have shows := @shows_place source before after [] unrecognised.character
      (by simpa using split) (by simpa using Ne.symm notNewline) notReturn
    rw [Diagnostic.PointsAt, start]
    exact shows.mono fun _ _ => trivial

/-- A diagnostic of the grammar quotes nothing that has to be found. -/
theorem pointsAt_of_syntactic
    {diagnostic : Diagnostic}
    (syntactic : diagnostic.cause.stage = .syntactic) :
    diagnostic.PointsAt source := by
  unfold Diagnostic.PointsAt
  cases cause : diagnostic.cause <;> simp_all [Diagnostic.Cause.stage]

end Source

/-! ## Names -/

/-- A name in a tree is an identifier of the program. -/
theorem Tree.Represents.exists_identifier
    {tree : Tree}
    {program : Program Mark}
    (represents : tree.Represents program)
    {node : NodeId}
    (isName : tree.IsName node) :
    ∃ mark, (.identifier, mark) ∈ program.outline.leaves ∧ mark.node = node ∧
      ∃ left right, tree.nodes[node]? = some ⟨.identifier, mark.token, left, right⟩ := by
  -- It is enough to find a part of the outline that is an identifier.
  suffices found : ∃ part ∈ program.outline.parts,
      part.tag = .identifier ∧ part.label.node = node by
    obtain ⟨part, isPart, isIdentifier, rfl⟩ := found
    have leaf : (Tag.identifier, part.label) ∈ program.outline.leaves := by
      rw [Outline.leaves, List.mem_map]
      refine ⟨part, List.mem_filter.mpr ⟨isPart, ?_⟩, by rw [isIdentifier]⟩
      rw [isIdentifier]
      rfl
    obtain ⟨left, right, present⟩ := (represents.isHeld part isPart).present
    rw [isIdentifier] at present
    exact ⟨part.label, leaf, rfl, left, right, present⟩
  rcases isName with ⟨found, present, isIdentifier⟩ |
    ⟨function, found, parts, present, isFunction, partsRead, rfl⟩
  · obtain ⟨part, isPart, -, same, tagged, -⟩ := represents.exists_isHeld present
    exact ⟨part, isPart, tagged.trans isIdentifier, same⟩
  · -- The name of a function is its first child, and that is an identifier.
    obtain ⟨part, isPart, held, rfl, tagged, -⟩ := represents.exists_isHeld present
    rw [isFunction] at tagged
    have children := held.children (by simp [tagged])
    rw [Tree.children_of_functionParts present isFunction partsRead, Except.ok.injEq] at children
    have fits := program.fits_outline part isPart
    rw [Outline.Fits, tagged] at fits
    obtain ⟨parameters, tags⟩ := fits
    cases same : part.children with
    | nil => simp [same] at tags
    | cons name rest =>
        have isChild : name ∈ part.children := by simp [same]
        rw [same, List.map_cons, List.cons_append, List.cons.injEq] at tags children
        exact ⟨name, Outline.mem_parts_of_mem_children isPart isChild, tags.1, children.1.symm⟩

/-- The analysis of a tree reports what is wrong with names, and then what is wrong with
types. -/
theorem Tree.exists_found_of_analyze
    {tree : Tree}
    {report after : Report}
    {analysis : Analysis}
    (analyzed : tree.analyze report = .ok (analysis, after)) :
    ∃ resolution names inference,
      tree.resolution = .ok resolution ∧ tree.inference names = .ok inference ∧
        after.diagnostics =
          report.diagnostics ++ (resolution.diagnostics ++ inference.diagnostics) := by
  obtain ⟨resolution, resolved, analyzed⟩ := exists_of_bind_eq_ok analyzed
  obtain ⟨names, -, analyzed⟩ := exists_of_bind_eq_ok analyzed
  obtain ⟨inference, inferred, analyzed⟩ := exists_of_bind_eq_ok analyzed
  obtain ⟨types, -, analyzed⟩ := exists_of_bind_eq_ok analyzed
  cases analyzed
  exact ⟨resolution, names, inference, resolved, inferred, Array.append_assoc⟩

namespace Source

variable {source : Source} {stream : Stream} {tree : Tree}

/-- An identifier of the tree of a source is a word of the text. -/
theorem isWordAt_of_isName
    (streamMade : source.stream = .ok stream)
    (made : stream.tree = .ok tree)
    {node : NodeId}
    (isName : tree.IsName node) :
    ∃ token : Token,
      tree.text node = .ok token.value ∧
        Token.IsWordAt source.text.toList token.span.start token.value.toList ∧
        ∀ location, tree.location node = .ok location ->
          location = source.place token.span.start := by
  have ends := endsOnce_of_stream streamMade
  obtain ⟨program, represents, derived⟩ := stream.exists_represents ends made
  obtain ⟨tokens, scanned, rfl⟩ := exists_scan streamMade
  obtain ⟨_, _, _, _, rfl⟩ := (Stream.tree_eq_ok ends).mp made
  obtain ⟨mark, isLeaf, rfl, left, right, present⟩ := represents.exists_identifier isName
  -- The main token of a leaf is an identifier, and was scanned as a word.
  obtain ⟨token, tokenAt, isIdentifier⟩ := derived.exists_identifier isLeaf
  have member : token ∈ tokens := List.mem_of_getElem? (by simpa using tokenAt)
  obtain ⟨place, start, isWord⟩ := Token.isWordAt_of_scan scanned token member isIdentifier
  rw [Nat.zero_add] at start
  refine ⟨token, ?_, start ▸ isWord, fun location located => ?_⟩
  · simp only [Tree.text, Tree.node_eq_ok present, Tree.token, tokenAt, bind, Except.bind]
    rfl
  · simp only [Tree.location, Tree.node_eq_ok present, Tree.token, tokenAt, bind,
      Except.bind, Source.locate] at located
    split at located
    · cases located
      rfl
    · cases located

theorem pointsAt_of_quotes
    (streamMade : source.stream = .ok stream)
    (made : stream.tree = .ok tree)
    {diagnostic : Diagnostic}
    (quotes : tree.Quotes diagnostic) :
    diagnostic.PointsAt source := by
  obtain ⟨node, lexeme, isName, read, located, cause⟩ := quotes
  obtain ⟨token, text, isWord, placed⟩ := isWordAt_of_isName streamMade made isName
  rw [read, Except.ok.injEq] at text
  subst text
  have spelled : Token.Rule.IsWord token.value.toList := by
    obtain ⟨_, _, _, _, spelled, _⟩ := isWord
    exact spelled
  have shown := placed _ located ▸ shows_word isWord
  unfold Diagnostic.PointsAt
  rcases cause with undeclared | redeclared
  · rw [undeclared]
    exact ⟨spelled, shown⟩
  · rw [redeclared]
    exact ⟨spelled, shown⟩

/-- What the analysis of a tree reports points at the text. -/
theorem pointsAt_of_analyze
    (streamMade : source.stream = .ok stream)
    (made : stream.tree = .ok tree)
    {report after : Report}
    {analysis : Analysis}
    (analyzed : tree.analyze report = .ok (analysis, after)) :
    ∃ found, after.diagnostics = report.diagnostics ++ found ∧
      ∀ diagnostic ∈ found, diagnostic.PointsAt source := by
  obtain ⟨resolution, names, inference, resolved, inferred, added⟩ :=
    Tree.exists_found_of_analyze analyzed
  refine ⟨_, added, fun diagnostic member => ?_⟩
  rcases Array.mem_append.mp member with named | mistyped
  · have sound := Tree.sound_of_resolution resolved
    exact pointsAt_of_quotes streamMade made (sound.reported diagnostic named)
  · have sound := Tree.sound_of_inference inferred
    obtain ⟨left, right, cause⟩ := sound.mismatches diagnostic mistyped
    unfold Diagnostic.PointsAt
    rw [cause]
    trivial

/-- Every diagnostic that the analysis of a source adds to a report points at the text
that it quotes. -/
theorem diagnostics_point_at_text
    (short : source.text.utf8ByteSize + 1 < wordSize)
    {report after : Report}
    {analysis : Option Analysis}
    (analyzed : source.analyze report = .ok (analysis, after)) :
    ∃ found, after.diagnostics = report.diagnostics ++ found ∧
      ∀ diagnostic ∈ found, diagnostic.PointsAt source := by
  rcases exists_tree_or_diagnostic short with
    ⟨tree, made⟩ | ⟨diagnostic, failed, scanned | syntactic⟩
  · simp only [Source.analyze, made] at analyzed
    obtain ⟨⟨analysis, report⟩, treeAnalyzed, same⟩ := exists_of_bind_eq_ok analyzed
    cases same
    obtain ⟨stream, streamMade, made⟩ := exists_stream_of_tree made
    exact pointsAt_of_analyze streamMade made treeAnalyzed
  · simp only [Source.analyze, failed] at analyzed
    cases analyzed
    refine ⟨#[diagnostic], by simp [Report.push], ?_⟩
    simpa using pointsAt_of_tokens scanned
  · simp only [Source.analyze, failed] at analyzed
    cases analyzed
    refine ⟨#[diagnostic], by simp [Report.push], ?_⟩
    simpa using pointsAt_of_syntactic syntactic

/-- A name that is declared nowhere, after a string of two-byte characters on a line that
ends with a carriage return, and a name that is declared twice. -/
def quoting : Source :=
  .ofText "const s = \"été\" + y\r\nvar s = 1" none

theorem diagnostics_point_at_text_quoting :
    quoting.text.utf8ByteSize + 1 < wordSize ∧
      ∃ analysis after,
        quoting.analyze (.empty 10) = .ok (analysis, after) ∧
          ⟨.undeclared "y", ⟨1, 21, "shell"⟩⟩ ∈ after.diagnostics ∧
          ⟨.redeclared "s", ⟨2, 5, "shell"⟩⟩ ∈ after.diagnostics ∧
          ∃ found, after.diagnostics = #[] ++ found ∧
            ∀ diagnostic ∈ found, diagnostic.PointsAt quoting := by
  have short : quoting.text.utf8ByteSize + 1 < wordSize := by cbv
  obtain ⟨tree, made, addressable, found⟩ :
      ∃ tree, quoting.tree = .ok tree ∧ tree.Addressable ∧
        tree.resolution.map (·.diagnostics) =
          .ok #[⟨.undeclared "y", ⟨1, 21, "shell"⟩⟩, ⟨.redeclared "s", ⟨2, 5, "shell"⟩⟩] := by
    refine ⟨_, by cbv, ⟨?_, ?_⟩, ?_⟩ <;> cbv
  obtain ⟨_, _, -, -, legible⟩ := exists_legible made addressable
  obtain ⟨resolution, names, inference, types, resolved, -, -, -, treeAnalyzed⟩ :=
    legible.exists_analyze (.empty 10)
  rw [resolved, Except.map, Except.ok.injEq] at found
  have analyzed : quoting.analyze (.empty 10) = .ok (some { tree, names, types },
      ((Report.empty 10).append resolution.diagnostics).append inference.diagnostics) := by
    simp only [Source.analyze, made, treeAnalyzed, bind, Except.bind]
    rfl
  refine ⟨short, _, _, analyzed, ?_, ?_, diagnostics_point_at_text short analyzed⟩
  · simp [Report.append, found]
  · simp [Report.append, found]

end Source

end Frontend
