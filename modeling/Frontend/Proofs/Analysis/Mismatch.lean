import Frontend.Proofs.Analysis.Identity
import Frontend.Proofs.Types.Steps

/-!
# Reported types differ

Two types that are reported because they cannot be the same have different texts. The text
of a type tells its tree: words end where a blank or a parenthesis stands, and parentheses
enclose the parts of a type. When a unification fails, the trees of the two types differ in
the graph that it leaves behind. Were they the same, these trees would be a solution in
which both types agree.
-/

namespace Frontend

/-! ## Texts tell trees apart -/

namespace TypeTree

/-- Induction over trees, with all subtypes of a function at once. -/
@[elab_as_elim, induction_eliminator]
theorem inductionOn
    {Var : Type}
    {motive : TypeTree Var -> Prop}
    (var : ∀ name, motive (.var name))
    (base : ∀ kind, motive (.base kind))
    (pointer : ∀ pointee, motive pointee -> motive (.pointer pointee))
    (function : ∀ subtypes, (∀ part ∈ subtypes, motive part) -> motive (.function subtypes))
    (tree : TypeTree Var) :
    motive tree :=
  match tree with
  | .var name => var name
  | .base kind => base kind
  | .pointer pointee => pointer pointee (inductionOn var base pointer function pointee)
  | .function subtypes =>
      function subtypes fun part _ => inductionOn var base pointer function part

/-- The character belongs to a word: it neither separates types nor encloses them. -/
def isInWord (character : Char) : Bool :=
  character != ' ' && character != '(' && character != ')'

/-- The text of the tree is one word. -/
def IsWord (tree : TypeTree TypeId) : Prop :=
  tree.text.toList ≠ [] ∧ ∀ character ∈ tree.text.toList, isInWord character = true

/-- The text of a list of trees in a function type. -/
def spaced (trees : List (TypeTree TypeId)) : List Char :=
  trees.flatMap fun tree => ' ' :: tree.text.toList

theorem toList_text_var (id : TypeId) :
    (var id).text.toList = "'t".toList ++ Nat.toDigits 10 id := by
  have sameSign : toString "'t" = "'t" := rfl
  simp [text, sameSign]

theorem toList_text_pointer (pointee : TypeTree TypeId) :
    (pointer pointee).text.toList = '(' :: '^' :: ' ' :: pointee.text.toList ++ [')'] := by
  have sameText : ∀ written : String, toString written = written := fun _ => rfl
  simp [text, sameText]

theorem toList_text_function (subtypes : List (TypeTree TypeId)) :
    (function subtypes).text.toList = '(' :: 'F' :: 'N' :: spaced subtypes ++ [')'] := by
  simp [text, spaced, List.flatMap_map]

theorem isWord_var (id : TypeId) : (var id).IsWord := by
  rw [IsWord, toList_text_var]
  refine ⟨by simp, List.forall_mem_append.mpr ⟨by simp [isInWord], fun digit member => ?_⟩⟩
  have isDigit := isDigit_of_mem_toDigits member
  by_contra outside
  obtain rfl | rfl | rfl : digit = ' ' ∨ digit = '(' ∨ digit = ')' := by
    simpa [isInWord, or_iff_not_imp_left] using outside
  all_goals cases isDigit

theorem isWord_base (kind : BaseType) : (base kind : TypeTree TypeId).IsWord := by
  cases kind <;> simp [IsWord, text, BaseType.name, isInWord]

/-- A word does not start with a parenthesis. -/
theorem IsWord.append_ne
    {tree : TypeTree TypeId}
    (isWord : tree.IsWord)
    (rest others : List Char) :
    tree.text.toList ++ rest ≠ '(' :: others := by
  obtain ⟨nonempty, inside⟩ := isWord
  obtain ⟨first, word, written⟩ := List.exists_cons_of_ne_nil nonempty
  intro same
  rw [written, List.cons_append, List.cons.injEq] at same
  have inWord := inside first (by simp [written])
  rw [same.1] at inWord
  cases inWord

theorem text_var_ne_text_base (id : TypeId) (kind : BaseType) :
    (var id).text.toList ≠ (base kind : TypeTree TypeId).text.toList := by
  rw [toList_text_var]
  cases kind <;> simp [text, BaseType.name]

/-- The text of the tree, before a character that ends words, starts no text of another
tree. -/
def IsReadable (tree : TypeTree TypeId) : Prop :=
  ∀ (other : TypeTree TypeId) (stop otherStop : Char) (rest others : List Char),
    isInWord stop = false -> isInWord otherStop = false ->
      tree.text.toList ++ stop :: rest = other.text.toList ++ otherStop :: others ->
        tree = other

/-- A word is readable if no other word is the same. -/
theorem IsWord.isReadable
    {tree : TypeTree TypeId}
    (isWord : tree.IsWord)
    (noVar : ∀ id, tree.text.toList = (var id).text.toList -> tree = .var id)
    (noBase : ∀ kind, tree.text.toList = (base kind).text.toList -> tree = .base kind) :
    tree.IsReadable := by
  intro other stop otherStop rest others stops otherStops same
  cases other with
  | var id =>
      exact noVar id (eq_and_eq_of_append_cons_eq isWord.2 (isWord_var id).2 stops otherStops
        same).1
  | base kind =>
      exact noBase kind (eq_and_eq_of_append_cons_eq isWord.2 (isWord_base kind).2 stops
        otherStops same).1
  | pointer pointee =>
      rw [toList_text_pointer] at same
      exact absurd same (isWord.append_ne _ _)
  | function subtypes =>
      rw [toList_text_function] at same
      exact absurd same (isWord.append_ne _ _)

/-- Behind a type in a list there is a blank or the end of the list. -/
theorem exists_stop (trees : List (TypeTree TypeId)) (rest : List Char) :
    ∃ stop behind, spaced trees ++ ')' :: rest = stop :: behind ∧ isInWord stop = false := by
  cases trees with
  | nil => exact ⟨')', rest, rfl, rfl⟩
  | cons tree trees => exact ⟨' ', _, rfl, rfl⟩

/-- The parts of a function type can be read one after the other. -/
theorem eq_of_spaced
    {trees otherTrees : List (TypeTree TypeId)}
    {rest others : List Char}
    (readable : ∀ tree ∈ trees, tree.IsReadable)
    (same : spaced trees ++ ')' :: rest = spaced otherTrees ++ ')' :: others) :
    trees = otherTrees := by
  induction trees generalizing otherTrees with
  | nil =>
      cases otherTrees with
      | nil => rfl
      | cons other otherTrees => cases (List.cons.inj same).1
  | cons tree trees ih =>
      cases otherTrees with
      | nil => cases (List.cons.inj same).1
      | cons other otherTrees =>
          obtain ⟨treeReadable, treesReadable⟩ := List.forall_mem_cons.mp readable
          obtain ⟨stop, behind, ends, stops⟩ := exists_stop trees rest
          obtain ⟨otherStop, otherBehind, otherEnds, otherStops⟩ :=
            exists_stop otherTrees others
          have sameTexts : tree.text.toList ++ (spaced trees ++ ')' :: rest) =
              other.text.toList ++ (spaced otherTrees ++ ')' :: others) := by
            simpa [spaced] using same
          obtain rfl : tree = other := by
            rw [ends, otherEnds] at sameTexts
            exact treeReadable other _ _ _ _ stops otherStops sameTexts
          rw [ih treesReadable (List.append_cancel_left sameTexts)]

/-- Every tree can be read from its text. -/
theorem isReadable (tree : TypeTree TypeId) : tree.IsReadable := by
  induction tree with
  | var id =>
      refine (isWord_var id).isReadable (fun other written => ?_) fun kind written => ?_
      · rw [toList_text_var, toList_text_var] at written
        rw [eq_of_toDigits_eq (List.append_cancel_left written)]
      · exact absurd written (text_var_ne_text_base id kind)
  | base kind =>
      refine (isWord_base kind).isReadable (fun id written => ?_) fun other written => ?_
      · exact absurd written.symm (text_var_ne_text_base id kind)
      · cases kind <;> cases other <;> simp_all [text, BaseType.name]
  | pointer pointee ih =>
      intro other stop otherStop rest others stops otherStops same
      rw [toList_text_pointer] at same
      cases other with
      | var other => exact absurd same.symm ((isWord_var other).append_ne _ _)
      | base kind => exact absurd same.symm ((isWord_base kind).append_ne _ _)
      | pointer other =>
          rw [toList_text_pointer] at same
          rw [ih other ')' ')' (stop :: rest) (otherStop :: others) rfl rfl
            (by simpa using same)]
      | function subtypes =>
          rw [toList_text_function] at same
          simp at same
  | function subtypes ih =>
      intro other stop otherStop rest others stops otherStops same
      rw [toList_text_function] at same
      cases other with
      | var other => exact absurd same.symm ((isWord_var other).append_ne _ _)
      | base kind => exact absurd same.symm ((isWord_base kind).append_ne _ _)
      | pointer other =>
          rw [toList_text_pointer] at same
          simp at same
      | function others =>
          rw [toList_text_function] at same
          rw [eq_of_spaced ih (by simpa using same)]

/-- Different trees have different texts. -/
theorem text_injective : Function.Injective text := by
  intro tree other same
  exact isReadable tree other ' ' ' ' [] [] rfl rfl (by rw [same])

end TypeTree

/-! ## Types that clash -/

/-- Where unification fails, the two types have different texts in the graph that it
leaves behind. -/
theorem TypeGraph.WellFormed.exists_texts_ne
    {graph coarse : TypeGraph}
    (wellFormed : graph.WellFormed)
    {left right : TypeId}
    (leftExists : left < graph.repository.size)
    (rightExists : right < graph.repository.size)
    {clash : Clash}
    (failed : Unifier.unify left right graph = .error (.failed clash) coarse) :
    ∃ leftText rightText,
      coarse.render left = .ok leftText ∧ coarse.render right = .ok rightText ∧
        leftText ≠ rightText := by
  have settles := Unifier.settles_unify wellFormed leftExists rightExists
  rw [failed] at settles
  obtain ⟨coarseWellFormed, coarsens, unsolved⟩ := settles
  rw [← coarsens.repository] at leftExists rightExists
  refine ⟨_, _, coarseWellFormed.renderWithin_eq leftExists (Nat.lt_succ_self _),
    coarseWellFormed.renderWithin_eq rightExists (Nat.lt_succ_self _), fun same => ?_⟩
  have solves := coarsens.solves (coarseWellFormed.solves_tree .var)
  have equal := TypeTree.text_injective same
  exact unsolved _ _ solves (by simpa using equal)

/-- If the diagnostic is about two types that do not agree, their texts differ. -/
def Diagnostic.Distinguishes (diagnostic : Diagnostic) : Prop :=
  ∀ left right, diagnostic.cause = .mismatch left right -> left ≠ right

/-- Every move reports types with different texts only. -/
theorem Inference.Move.distinguishes
    {tree : Tree}
    {node : NodeId}
    {before after : Inference}
    (move : before.Move tree node after)
    (sound : before.Sound)
    (distinguish : ∀ diagnostic ∈ before.diagnostics, diagnostic.Distinguishes) :
    ∀ diagnostic ∈ after.diagnostics, diagnostic.Distinguishes := by
  cases move with
  | report leftExists rightExists failed leftRendered rightRendered _ =>
      obtain ⟨leftText, rightText, leftSame, rightSame, differ⟩ :=
        sound.reachable.wellFormed.exists_texts_ne leftExists rightExists failed
      cases leftRendered.symm.trans leftSame
      cases rightRendered.symm.trans rightSame
      intro diagnostic member
      rcases Array.mem_push.mp member with earlier | rfl
      · exact distinguish diagnostic earlier
      · rintro _ _ same
        cases same
        exact differ
  | graph _ | push _ | pop _ | bindName _ _ | openFunction _ | closeFunction =>
      exact distinguish

/-- Inferring the types of a tree reports types with different texts only. -/
theorem Tree.distinguishes_of_inference
    {tree : Tree}
    {names : NameTable}
    {inference : Inference}
    (inferred : tree.inference names = .ok inference) :
    ∀ diagnostic ∈ inference.diagnostics, diagnostic.Distinguishes := by
  obtain ⟨_, -, walked⟩ := exists_walk_of_inference inferred
  exact (Infer.holds_of_forM
    (fun _ _ _ sound distinguish move => move.distinguishes sound distinguish) .empty (by simp)
    walked).2

/-- The analysis of a tree reports types with different texts only. -/
theorem Tree.distinguishes_of_analyze
    {tree : Tree}
    {report after : Report}
    {analysis : Analysis}
    (analyzed : tree.analyze report = .ok (analysis, after)) :
    ∃ found, after.diagnostics = report.diagnostics ++ found ∧
      ∀ diagnostic ∈ found, diagnostic.Distinguishes := by
  obtain ⟨resolution, names, inference, resolved, inferred, added⟩ :=
    exists_found_of_analyze analyzed
  refine ⟨_, added, fun diagnostic member => ?_⟩
  rcases Array.mem_append.mp member with named | mistyped
  · intro left right mismatched
    obtain ⟨_, _, -, -, -, cause | cause⟩ :=
      (Tree.sound_of_resolution resolved).reported diagnostic named
    all_goals cases mismatched.symm.trans cause
  · exact distinguishes_of_inference inferred diagnostic mistyped

namespace Source

/-- The analysis of a source with a tree reports no two types with one text. The analysis
comes to an end if the tree can be addressed. In every graph that operations lead to, types
that cannot be unified have different texts afterwards. -/
theorem reported_types_differ :
    (∀ (source : Source) (tree : Tree) (report : Report), source.tree = .ok tree ->
      (∀ analysis after, source.analyze report = .ok (analysis, after) ->
        ∃ found, after.diagnostics = report.diagnostics ++ found ∧
          ∀ diagnostic ∈ found, diagnostic.Distinguishes) ∧
      (tree.Addressable -> ∃ analysis after,
        source.analyze report = .ok (some analysis, after))) ∧
    ∀ (graph coarse : TypeGraph) (left right : TypeId) (clash : Clash), graph.Reachable ->
      left < graph.repository.size -> right < graph.repository.size ->
        Unifier.unify left right graph = .error (.failed clash) coarse ->
          ∃ leftText rightText,
            coarse.render left = .ok leftText ∧ coarse.render right = .ok rightText ∧
              leftText ≠ rightText := by
  refine ⟨fun source tree report made => ⟨fun analysis after analyzed => ?_,
    fun addressable => ?_⟩, ?_⟩
  · simp only [Source.analyze, made] at analyzed
    obtain ⟨⟨analysis, report⟩, treeAnalyzed, same⟩ := exists_of_bind_eq_ok analyzed
    cases same
    exact Tree.distinguishes_of_analyze treeAnalyzed
  · obtain ⟨_, _, -, -, legible⟩ := exists_legible made addressable
    obtain ⟨_, _, _, _, -, -, -, -, treeAnalyzed⟩ := legible.exists_analyze report
    simp only [Source.analyze, made, treeAnalyzed, bind, Except.bind]
    exact ⟨_, _, rfl⟩
  · intro graph coarse left right clash reachable leftExists rightExists failed
    exact reachable.wellFormed.exists_texts_ne leftExists rightExists failed

/-- A pointer to a number is made to point to a truth value. -/
def repointed : Source :=
  .ofText "var p = &1\np = &true" none

/-- The pointers are reported. Two function types that clash in their results differ
afterwards, though what was a variable in the first has become an integer, as it is in
the second. -/
theorem reported_types_differ_repointed :
    (∃ tree analysis after, repointed.tree = .ok tree ∧ tree.Addressable ∧
      repointed.analyze (.empty 10) = .ok (some analysis, after) ∧
      after.diagnostics = #[⟨.mismatch "(^ int)" "(^ bool)", ⟨2, 3, "shell"⟩⟩] ∧
      ∃ found, after.diagnostics = #[] ++ found ∧
        ∀ diagnostic ∈ found, diagnostic.Distinguishes) ∧
    ∃ (graph coarse : TypeGraph) (clash : Clash),
      graph = (((((({} : TypeGraph).fresh none).2.base .int).2.base .bool).2.function
          [0, 1]).2.function [1, 2]).2 ∧
        graph.Reachable ∧ 3 < graph.repository.size ∧ 4 < graph.repository.size ∧
        Unifier.unify 3 4 graph = .error (.failed clash) coarse ∧
        coarse.render 3 = .ok "(FN int int)" ∧ coarse.render 4 = .ok "(FN int bool)" ∧
        ∃ leftText rightText,
          coarse.render 3 = .ok leftText ∧ coarse.render 4 = .ok rightText ∧
            leftText ≠ rightText := by
  obtain ⟨reports, clashes⟩ := reported_types_differ
  constructor
  · have parsed : ∃ tree, repointed.tree = .ok tree ∧ tree.Addressable := by
      refine ⟨_, by cbv, ?_, ?_⟩ <;> cbv
    have reported : (repointed.analyze (.empty 10)).map (fun result => result.2.diagnostics) =
        .ok #[⟨.mismatch "(^ int)" "(^ bool)", ⟨2, 3, "shell"⟩⟩] := by cbv
    obtain ⟨tree, made, addressable⟩ := parsed
    obtain ⟨differ, ends⟩ := reports repointed tree (.empty 10) made
    obtain ⟨analysis, after, analyzed⟩ := ends addressable
    rw [analyzed, Except.map, Except.ok.injEq] at reported
    exact ⟨tree, analysis, after, made, addressable, analyzed, reported, differ _ _ analyzed⟩
  · let graph := (((((({} : TypeGraph).fresh none).2.base .int).2.base .bool).2.function
      [0, 1]).2.function [1, 2]).2
    have reachable : graph.Reachable :=
      ((((Relation.ReflTransGen.single (.fresh none)).tail (.base .int)).tail
        (.base .bool)).tail (.function (by decide))).tail (.function (by decide))
    have failed : ∃ coarse clash, Unifier.unify 3 4 graph = .error (.failed clash) coarse ∧
        coarse.render 3 = .ok "(FN int int)" ∧ coarse.render 4 = .ok "(FN int bool)" := by
      refine ⟨_, _, by cbv, ?_, ?_⟩ <;> cbv
    obtain ⟨coarse, clash, failed, left, right⟩ := failed
    exact ⟨graph, coarse, clash, rfl, reachable, by decide, by decide, failed, left, right,
      clashes graph coarse 3 4 clash reachable (by decide) (by decide) failed⟩

end Source

end Frontend
