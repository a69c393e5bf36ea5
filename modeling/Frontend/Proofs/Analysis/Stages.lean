import Frontend.Proofs.Analysis.Totality
import Frontend.Proofs.Scope.Order

/-!
# Diagnostics by stages

The analysis of a source adds to a report, and changes nothing that was reported before.
Either there is no analysis, and the one diagnostic is that of the scanner or of the
grammar, or there is one, and what was found is wrong with names and types. The
diagnostics of names come first, in the order of the text.
-/

namespace Frontend

/-- The diagnostic is about the name at this node. -/
def Tree.Blames (tree : Tree) (diagnostic : Diagnostic) (node : NodeId) : Prop :=
  ∃ lexeme,
    tree.IsName node ∧ tree.text node = .ok lexeme ∧
      tree.location node = .ok diagnostic.location ∧
      (diagnostic.cause = .undeclared lexeme ∨ diagnostic.cause = .redeclared lexeme)

/-- The diagnostics of names come before those of types and in the order of their places,
each about a node of its own. -/
def Tree.ReportsInOrder (tree : Tree) (found : List Diagnostic) : Prop :=
  ∃ named mistyped,
    found = named ++ mistyped ∧
      (named.Pairwise fun first second => first.location.Before second.location) ∧
      (∃ nodes : List NodeId, nodes.Nodup ∧ List.Forall₂ tree.Blames named nodes) ∧
      ∀ diagnostic ∈ mistyped, diagnostic.IsMismatch

/-- What was found, by the stage that the analysis has reached. -/
structure Analysis.IsStaged (analysis : Option Analysis) (found : List Diagnostic) : Prop where
  /-- There is no analysis just if one diagnostic was found, and not by the semantic
  stage. -/
  stopped : analysis = none ↔ ∃ diagnostic, found = [diagnostic] ∧
    (diagnostic.cause.stage = .lexical ∨ diagnostic.cause.stage = .syntactic)
  semantic : ∀ finished, analysis = some finished ->
    ∀ diagnostic ∈ found, diagnostic.cause.stage = .semantic
  ordered : ∀ finished, analysis = some finished -> finished.tree.ReportsInOrder found

/-- What the stages of the analysis find in a source: what the scanner or the parser rejects,
or else what is wrong with the names and then with the types of its tree. -/
inductive Source.Finds (source : Source) : Option Analysis -> Array Diagnostic -> Prop
  | stopped
      {diagnostic : Diagnostic}
      (rejected : source.tree = .error (.failed diagnostic)) :
      Finds source none #[diagnostic]
  | finished
      {tree : Tree}
      {resolution : Resolution}
      {names : NameTable}
      {inference : Inference}
      {types : TypeTable}
      (made : source.tree = .ok tree)
      (resolved : tree.resolution = .ok resolution)
      (named : resolution.names tree = .ok names)
      (inferred : tree.inference names = .ok inference)
      (tabled : inference.table = .ok types) :
      Finds source (some { tree, names, types })
        (resolution.diagnostics ++ inference.diagnostics)

namespace Tree

variable {tree : Tree}

theorem Blames.stage_eq
    {diagnostic : Diagnostic}
    {node : NodeId}
    (blames : tree.Blames diagnostic node) :
    diagnostic.cause.stage = .semantic := by
  obtain ⟨lexeme, -, -, -, undeclared | redeclared⟩ := blames
  · rw [undeclared]
    rfl
  · rw [redeclared]
    rfl

/-- Diagnostics at different places are about different nodes. -/
theorem exists_nodup_blames
    {named : List Diagnostic}
    (blamed : ∀ diagnostic ∈ named, ∃ node, tree.Blames diagnostic node)
    (ordered : named.Pairwise fun first second => first.location.Before second.location) :
    ∃ nodes : List NodeId, nodes.Nodup ∧ List.Forall₂ tree.Blames named nodes := by
  choose! node blames using blamed
  refine ⟨named.map node, ?_, ?_⟩
  · rw [List.Nodup, List.pairwise_map]
    refine ordered.imp_of_mem fun {first second} firstMember secondMember before same => ?_
    obtain ⟨-, -, -, located, -⟩ := blames first firstMember
    obtain ⟨-, -, -, otherLocated, -⟩ := blames second secondMember
    rw [same, otherLocated, Except.ok.injEq] at located
    rw [located] at before
    exact Location.Before.irrefl _ before
  · rw [List.forall₂_map_right_iff, List.forall₂_same]
    exact blames

end Tree

theorem Diagnostic.IsMismatch.stage_eq
    {diagnostic : Diagnostic}
    (isMismatch : diagnostic.IsMismatch) :
    diagnostic.cause.stage = .semantic := by
  obtain ⟨left, right, cause⟩ := isMismatch
  rw [cause]
  rfl

namespace Analysis

/-- What was found in order was found by the semantic stage. -/
theorem isStaged_some
    {analysis : Analysis}
    {found : List Diagnostic}
    (ordered : analysis.tree.ReportsInOrder found) :
    IsStaged (some analysis) found := by
  have semantic : ∀ diagnostic ∈ found, diagnostic.cause.stage = .semantic := by
    obtain ⟨named, mistyped, rfl, -, ⟨nodes, -, blames⟩, mismatches⟩ := ordered
    rw [List.forall_mem_append]
    refine ⟨fun diagnostic member => ?_, fun diagnostic member => ?_⟩
    · obtain ⟨node, -, blamed⟩ := exists_rel_of_mem blames member
      exact blamed.stage_eq
    · exact (mismatches diagnostic member).stage_eq
  refine ⟨iff_of_false (by simp) ?_, fun _ _ => semantic, ?_⟩
  · rintro ⟨diagnostic, rfl, lexical | syntactic⟩
    · rw [semantic diagnostic (by simp)] at lexical
      cases lexical
    · rw [semantic diagnostic (by simp)] at syntactic
      cases syntactic
  · rintro finished same
    cases same
    exact ordered

theorem isStaged_none
    {diagnostic : Diagnostic}
    (early : diagnostic.cause.stage = .lexical ∨ diagnostic.cause.stage = .syntactic) :
    IsStaged none [diagnostic] :=
  ⟨iff_of_true rfl ⟨diagnostic, rfl, early⟩, by simp, by simp⟩

end Analysis

namespace Source

variable {source : Source}

theorem stage_of_tokens
    {diagnostic : Diagnostic}
    (scanned : source.tokens = .error diagnostic) :
    diagnostic.cause.stage = .lexical := by
  unfold tokens at scanned
  split at scanned
  · cases scanned
  · cases scanned
    rfl

/-- The analysis of a tree adds what it finds in order. -/
theorem exists_reportsInOrder
    {tree : Tree}
    (made : source.tree = .ok tree)
    (addressable : tree.Addressable)
    (report : Report) :
    ∃ analysis found,
      tree.analyze report =
          .ok (analysis, { report with diagnostics := report.diagnostics ++ found }) ∧
        source.Finds (some analysis) found ∧ analysis.tree.ReportsInOrder found.toList := by
  obtain ⟨stream, program, streamMade, derived, legible⟩ := exists_legible made addressable
  obtain ⟨resolution, names, inference, types, resolved, named, inferred, tabled, analyzed⟩ :=
    legible.exists_analyze report
  obtain ⟨_, _, sameResolved, sameNamed, isLexical, -⟩ := legible.exists_names
  cases resolved.symm.trans sameResolved
  cases named.symm.trans sameNamed
  obtain ⟨_, sameStream, streamTree⟩ := exists_stream_of_tree made
  cases streamMade.symm.trans sameStream
  have ordered := isLexical.pairwise_diagnostics
    (pairwise_identifiers streamMade streamTree derived)
  have blamed : ∀ diagnostic ∈ resolution.diagnostics.toList,
      ∃ node, tree.Blames diagnostic node := fun diagnostic member =>
    (Tree.sound_of_resolution resolved).reported diagnostic (Array.mem_toList_iff.mp member)
  have mismatches : ∀ diagnostic ∈ inference.diagnostics.toList, diagnostic.IsMismatch :=
    fun diagnostic member =>
      (Tree.sound_of_inference inferred).mismatches diagnostic (Array.mem_toList_iff.mp member)
  refine ⟨{ tree, names, types }, resolution.diagnostics ++ inference.diagnostics, ?_,
    .finished made resolved named inferred tabled, resolution.diagnostics.toList,
    inference.diagnostics.toList, Array.toList_append, ordered,
    Tree.exists_nodup_blames blamed ordered, mismatches⟩
  rw [analyzed]
  simp only [Report.append, Array.append_assoc]

/-- The analysis of a source, whatever was reported before it, keeps what was reported and
adds its diagnostics by stages: one that ends it early, or those of names in the order of
the text and then those of types. -/
theorem reports_in_stages
    (short : source.text.utf8ByteSize + 1 < wordSize)
    (few : ∀ tree, source.tree = .ok tree -> tree.nodes.size ≤ Node.absent)
    (report : Report) :
    ∃ analysis found,
      source.analyze report =
          .ok (analysis, { report with diagnostics := report.diagnostics ++ found }) ∧
        source.Finds analysis found ∧ Analysis.IsStaged analysis found.toList := by
  unfold Source.analyze
  rcases exists_tree_or_diagnostic short with ⟨tree, made⟩ | ⟨diagnostic, failed, cause⟩
  · have addressable : tree.Addressable := by
      refine ⟨?_, few tree made⟩
      rwa [source_of_tree made]
    obtain ⟨analysis, found, analyzed, finds, ordered⟩ :=
      exists_reportsInOrder made addressable report
    refine ⟨some analysis, found, ?_, finds, Analysis.isStaged_some ordered⟩
    rw [made]
    simp only [analyzed, bind, Except.bind]
    rfl
  · refine ⟨none, #[diagnostic], ?_, .stopped failed,
      Analysis.isStaged_none (cause.imp_left stage_of_tokens)⟩
    rw [failed]
    simp [Report.push]

/-- A name that is declared nowhere, a name that is declared again, and a number where a
truth value has to be. -/
def mistaken : Source :=
  .ofText "var x = y\nvar x = !1" none

theorem reports_in_stages_mistaken :
    mistaken.text.utf8ByteSize + 1 < wordSize ∧
      (∀ tree, mistaken.tree = .ok tree -> tree.nodes.size ≤ Node.absent) ∧
      ∃ analysis found,
        mistaken.analyze ⟨#[⟨.unrecognised "?", ⟨1, 1, "shell"⟩⟩], 10⟩ =
            .ok (some analysis, ⟨#[⟨.unrecognised "?", ⟨1, 1, "shell"⟩⟩] ++ found, 10⟩) ∧
          found = #[⟨.undeclared "y", ⟨1, 9, "shell"⟩⟩, ⟨.redeclared "x", ⟨2, 5, "shell"⟩⟩,
            ⟨.mismatch "int" "bool", ⟨2, 9, "shell"⟩⟩] ∧
          mistaken.Finds (some analysis) found ∧
          Analysis.IsStaged (some analysis) found.toList := by
  have short : mistaken.text.utf8ByteSize + 1 < wordSize := by cbv
  have few : ∀ tree, mistaken.tree = .ok tree -> tree.nodes.size ≤ Node.absent := by
    obtain ⟨tree, made, small⟩ :
        ∃ tree, mistaken.tree = .ok tree ∧ tree.nodes.size ≤ Node.absent := ⟨_, by cbv, by cbv⟩
    intro other otherMade
    cases made.symm.trans otherMade
    exact small
  have reported : (mistaken.analyze ⟨#[⟨.unrecognised "?", ⟨1, 1, "shell"⟩⟩], 10⟩).map
      (fun result => (result.1.isSome, result.2.diagnostics)) =
        .ok (true, #[⟨.unrecognised "?", ⟨1, 1, "shell"⟩⟩] ++
          #[⟨.undeclared "y", ⟨1, 9, "shell"⟩⟩, ⟨.redeclared "x", ⟨2, 5, "shell"⟩⟩,
            ⟨.mismatch "int" "bool", ⟨2, 9, "shell"⟩⟩]) := by cbv
  obtain ⟨analysis, found, analyzed, finds, isStaged⟩ := reports_in_stages short few
    ⟨#[⟨.unrecognised "?", ⟨1, 1, "shell"⟩⟩], 10⟩
  rw [analyzed] at reported
  simp only [Except.map, Except.ok.injEq, Prod.mk.injEq, Array.append_right_inj] at reported
  obtain ⟨analysis, rfl⟩ := Option.isSome_iff_exists.mp reported.1
  exact ⟨short, few, analysis, found, analyzed, reported.2, finds, isStaged⟩

end Source

end Frontend
