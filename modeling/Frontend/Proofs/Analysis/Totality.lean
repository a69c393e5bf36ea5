import Frontend.Proofs.Grammar.Safety
import Frontend.Proofs.Scope.Steps
import Frontend.Proofs.Token.Slices
import Frontend.Proofs.Types.Principal
import Frontend.Proofs.Types.Steps

/-!
# Analysis always comes to an end

The analysis of a source that is short enough meets no fault. The text is cut only
between characters, lines start before the offsets that are counted from them, and the
walks through the tree find what they ask for at every step: records of the names in
force, types of the operands, and scopes and functions to leave.
-/

namespace Frontend

open Token (byteLength)

/-! ## Lines and columns -/

namespace LineIndex

/-- A column is counted from a line that starts at or before the offset. -/
theorem exists_start_placeFrom
    {offset start : Nat}
    (started : start ≤ offset)
    (line : Nat)
    (starts : List Nat) :
    ∃ first ∈ start :: starts,
      first ≤ offset ∧ (placeFrom offset line start starts).2 = offset - first + 1 := by
  induction starts generalizing line start with
  | nil => exact ⟨start, by simp, started, rfl⟩
  | cons next later ih =>
      rw [placeFrom]
      split
      next nextStarted =>
        obtain ⟨first, member, firstStarted, column⟩ :=
          ih nextStarted (line + 1)
        exact ⟨first, List.mem_cons_of_mem _ member, firstStarted, column⟩
      next => exact ⟨start, by simp, started, rfl⟩

theorem line_placeFrom_le (offset line start : Nat) (starts : List Nat) :
    (placeFrom offset line start starts).1 ≤ line + starts.length := by
  induction starts generalizing line start with
  | nil => simp [placeFrom]
  | cons next later ih =>
      rw [placeFrom, List.length_cons]
      split
      · have bound := ih (line + 1) next
        omega
      · exact Nat.le_add_right _ _

theorem length_startsAfter_le (offset : Nat) (text : List Char) :
    (startsAfter offset text).length ≤ byteLength text := by
  induction text generalizing offset with
  | nil => exact Nat.le_refl _
  | cons character rest ih =>
      have positive := character.utf8Size_pos
      have bound := ih (offset + character.utf8Size)
      rw [startsAfter, Token.byteLength_cons]
      split
      · rw [List.length_cons]
        omega
      · omega

end LineIndex

namespace Source

/-- The column of an offset counts from the start of a line at or before it. Line and
column fit into words. -/
def Counts (source : Source) (offset : Nat) : Prop :=
  (∃ start ∈ source.lines.starts,
    start ≤ offset ∧ (source.place offset).column = offset - start + 1) ∧
    (source.place offset).column < wordSize ∧ (source.place offset).line < wordSize

/-- The places in a text that is short enough are counted without a gap or an overflow. -/
theorem counts_of_le
    {source : Source}
    (short : source.text.utf8ByteSize + 1 < wordSize)
    {offset : Nat}
    (inside : offset ≤ source.text.utf8ByteSize) :
    source.Counts offset := by
  have starts : source.lines.starts = 0 :: LineIndex.startsAfter 0 source.text.toList := by
    rw [source.lines_eq]
    rfl
  refine ⟨?_, ?_, ?_⟩
  · obtain ⟨start, member, started, column⟩ :=
      LineIndex.exists_start_placeFrom (Nat.zero_le offset) 0 source.lines.starts
    refine ⟨start, ?_, started, column⟩
    rw [starts] at member ⊢
    simpa using member
  · have column := source.column_place_le offset
    omega
  · have line : (source.place offset).line ≤ 0 + source.lines.starts.length :=
      LineIndex.line_placeFrom_le offset 0 0 source.lines.starts
    have count := LineIndex.length_startsAfter_le 0 source.text.toList
    rw [Token.byteLength_toList] at count
    rw [starts, List.length_cons] at line
    omega

end Source

/-! ## Walks -/

/-- At every step of a walk the state is one that the steps have kept sound. Whatever is
left was entered before, and at the end nothing is open and nothing left over. -/
structure Tree.WalksSafely (tree : Tree) (events : List Event) : Prop where
  isWalk : tree.events = .ok events
  resolves : ∀ passed, passed <+: events ->
    ∃ resolution, passed.foldlM (Resolution.step tree) {} = .ok resolution ∧
      resolution.Sound tree
  balanced : ∀ resolution, events.foldlM (Resolution.step tree) {} = .ok resolution ->
    resolution.scopes.isBalanced = true
  infers : ∀ names passed, passed <+: events ->
    ∃ inference, (passed.forM (Infer.step tree names)) {} = .ok ((), inference) ∧
      inference.Sound ∧ inference.graph.RunsInside
  drained : ∀ names inference,
    (events.forM (Infer.step tree names)) {} = .ok ((), inference) ->
      inference.operands = [] ∧ inference.results = []

namespace Tree.Legible

variable {tree : Tree} {program : Program Mark} (legible : tree.Legible program)

include legible

/-- The walks through a legible tree are safe. -/
theorem exists_walksSafely : ∃ events, tree.WalksSafely events := by
  have walk := legible.represents.events legible.small
  obtain ⟨resolution, resolved, agrees⟩ := legible.exists_resolution
  have walked : program.events.foldlM (Resolution.step tree) {} = .ok resolution := by
    rwa [Tree.resolution, walk] at resolved
  have typed : ∀ names, ∃ inference placed,
      (program.events.forM (Infer.step tree names)) {} = .ok ((), inference) ∧
        inference.Reflects placed [] [] (program.Requires names) := by
    intro names
    obtain ⟨inference, placed, inferred, reflects, -⟩ := legible.exists_inference names
    obtain ⟨events, walked, ran⟩ := Tree.exists_walk_of_inference inferred
    cases walk.symm.trans walked
    exact ⟨inference, placed, ran, reflects⟩
  refine ⟨program.events, walk, ?_, ?_, ?_, ?_⟩
  · rintro passed ⟨rest, split⟩
    rw [← split, List.foldlM_append] at walked
    obtain ⟨halfway, reached, -⟩ := exists_of_bind_eq_ok walked
    exact ⟨halfway, reached, Resolution.sound_of_foldlM reached⟩
  · intro other otherWalked
    cases walked.symm.trans otherWalked
    obtain ⟨noneVisible, noneOpen⟩ := agrees.inForce.eq_nil
    rw [Scopes.isBalanced, noneVisible, noneOpen, agrees.entered]
    simp
  · rintro names passed ⟨rest, split⟩
    obtain ⟨inference, _, ran, -⟩ := typed names
    rw [← split, List.forM_eq_forM, List.forM_append] at ran
    obtain ⟨⟨⟩, halfway, reached, -⟩ := Infer.exists_of_bind ran
    have sound := Infer.sound_of_forM reached
    exact ⟨halfway, reached, sound, sound.reachable.runsInside⟩
  · intro names other otherRan
    obtain ⟨inference, _, ran, reflects⟩ := typed names
    cases ran.symm.trans otherRan
    exact ⟨List.forall₂_nil_right_iff.mp reflects.operands,
      List.forall₂_nil_right_iff.mp reflects.results⟩

/-- The analysis of a legible tree adds to every report what the two walks have found. -/
theorem exists_analyze (report : Report) :
    ∃ resolution names inference types,
      tree.resolution = .ok resolution ∧ resolution.names tree = .ok names ∧
        tree.inference names = .ok inference ∧ inference.table = .ok types ∧
        tree.analyze report = .ok ({ tree, names, types },
          (report.append resolution.diagnostics).append inference.diagnostics) := by
  obtain ⟨resolution, names, resolved, named, -, -⟩ := legible.exists_names
  obtain ⟨inference, placed, inferred, reflects, -⟩ := legible.exists_inference names
  have finished : inference.operands = [] := List.forall₂_nil_right_iff.mp reflects.operands
  obtain ⟨types, tabled, -⟩ :=
    Inference.exists_table reflects.captures.wellFormed finished
  refine ⟨resolution, names, inference, types, resolved, named, inferred, tabled, ?_⟩
  simp only [Tree.analyze, resolved, named, inferred, tabled, bind, Except.bind]
  rfl

end Tree.Legible

/-! ## Sources -/

namespace Source

variable {source : Source}

theorem source_of_tree {tree : Tree} (made : source.tree = .ok tree) : tree.source = source := by
  obtain ⟨stream, streamMade, made⟩ := exists_stream_of_tree made
  have ends := endsOnce_of_stream streamMade
  obtain ⟨tokens, -, rfl⟩ := exists_scan streamMade
  obtain ⟨_, _, _, _, rfl⟩ := (Stream.tree_eq_ok ends).mp made
  rfl

/-- A source that is short enough has a tree, or what is wrong with it was found by the
scanner or by the grammar. -/
theorem exists_tree_or_diagnostic (short : source.text.utf8ByteSize + 1 < wordSize) :
    (∃ tree, source.tree = .ok tree) ∨
      ∃ diagnostic, source.tree = .error (.failed diagnostic) ∧
        (source.tokens = .error diagnostic ∨ diagnostic.cause.stage = .syntactic) := by
  unfold Source.tree
  cases streamMade : source.stream with
  | error diagnostic =>
      exact .inr ⟨diagnostic, rfl, .inl (eq_error_of_bind_pure streamMade)⟩
  | ok stream =>
      have ends := endsOnce_of_stream streamMade
      have located := hasLocations_of_stream streamMade short
      rcases Stream.exists_tree_or_diagnostic ends located with
        made | ⟨diagnostic, failed, syntactic⟩
      · exact .inl made
      · exact .inr ⟨diagnostic, failed, .inr syntactic⟩

/-- The analysis of a source meets no fault, whatever was reported before it. -/
structure RunsSafely (source : Source) (report : Report) : Prop where
  sliced : Cursor.scan source = .ok (Token.scan false 0 source.text.toList)
  counted : ∀ offset, offset ≤ source.text.utf8ByteSize -> source.Counts offset
  walked : ∀ tree, source.tree = .ok tree -> ∃ events, tree.WalksSafely events
  analyzed : ∃ analysis after, source.analyze report = .ok (analysis, after)

/-- The analysis of a source always comes to an end, and never by a fault, if its text
and its tree are numbered by words. -/
theorem analysis_is_total
    (short : source.text.utf8ByteSize + 1 < wordSize)
    (few : ∀ tree, source.tree = .ok tree -> tree.nodes.size ≤ Node.absent)
    (report : Report) :
    source.RunsSafely report := by
  have legible : ∀ tree, source.tree = .ok tree -> ∃ program, tree.Legible program := by
    intro tree made
    have addressable : tree.Addressable := by
      refine ⟨?_, few tree made⟩
      rwa [source_of_tree made]
    obtain ⟨_, program, -, -, isLegible⟩ := exists_legible made addressable
    exact ⟨program, isLegible⟩
  refine ⟨?_, fun offset inside => counts_of_le short inside, fun tree made => ?_, ?_⟩
  · exact Cursor.scan_eq (Nat.lt_of_succ_lt short)
  · obtain ⟨program, isLegible⟩ := legible tree made
    exact isLegible.exists_walksSafely
  · unfold Source.analyze
    rcases exists_tree_or_diagnostic short with ⟨tree, made⟩ | ⟨diagnostic, failed, -⟩
    · obtain ⟨program, isLegible⟩ := legible tree made
      obtain ⟨_, names, _, types, -, -, -, -, analyzed⟩ := isLegible.exists_analyze report
      rw [made]
      simp only [analyzed, bind, Except.bind]
      exact ⟨_, _, rfl⟩
    · rw [failed]
      exact ⟨none, _, rfl⟩

/-- A function with a string of two-byte characters, which is called with itself, and a name
that is declared nowhere. -/
def circular : Source :=
  .ofText "fn f(x) \x7b return x(\"été\") \x7d // naïve\nconst g = f(f) + y" none

theorem analysis_is_total_circular :
    circular.text.utf8ByteSize + 1 < wordSize ∧
      (∀ tree, circular.tree = .ok tree -> tree.nodes.size ≤ Node.absent) ∧
      circular.RunsSafely (.empty 10) := by
  have short : circular.text.utf8ByteSize + 1 < wordSize := by cbv
  have few : ∀ tree, circular.tree = .ok tree -> tree.nodes.size ≤ Node.absent := by
    obtain ⟨tree, made, small⟩ :
        ∃ tree, circular.tree = .ok tree ∧ tree.nodes.size ≤ Node.absent := ⟨_, by cbv, by cbv⟩
    intro other otherMade
    cases made.symm.trans otherMade
    exact small
  exact ⟨short, few, analysis_is_total short few (.empty 10)⟩

end Source

end Frontend
