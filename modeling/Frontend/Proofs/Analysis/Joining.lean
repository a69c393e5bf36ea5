import Frontend.Proofs.Analysis.Identity
import Frontend.Proofs.Grammar.Joining
import Frontend.Proofs.Grammar.WellFormed
import Frontend.Proofs.Scope.Continuing

/-!
# Later lines keep earlier names

What is written below a source does not change what the source means. The tree of both
starts with the nodes of the first one, so the walk through it starts like the walk through
the first one, and what that walk finds stays found: the declarations with their qualified
names, what they are used by, and what is wrong with them.
-/

namespace Frontend

/-! ## Programs that go on -/

/-- The tree has the statements of both other ones below its root, and its other nodes
start with those of the first one. -/
structure Tree.Continues (joined tree later : Tree) : Prop where
  statements : ∃ ids laterIds,
    tree.statements root = .ok ids ∧ later.statements root = .ok laterIds ∧
      joined.statements root = .ok (ids ++ laterIds.map (tree.nodes.size - 1 + ·))
  /-- The later statements are the same as before, some nodes and some tokens further on. -/
  represents : ∃ program laterProgram,
    tree.Represents program ∧ later.Represents laterProgram ∧
      joined.Represents
        (program.followedBy laterProgram (tree.nodes.size - 1) (tree.tokens.size - 1))
  nodes : tree.nodes.toList.tail <+: joined.nodes.toList.tail

namespace Tree.Represents

variable
  {tree joined later : Tree}
  {program laterProgram : Program Mark}
  {nodes tokens : Nat}
  (represents : tree.Represents program)
  (laterRepresents : later.Represents laterProgram)
  (followed : joined.Represents (program.followedBy laterProgram nodes tokens))

include represents

theorem statements_eq : tree.statements root = .ok (program.statements.map (·.label.node)) := by
  obtain ⟨start, present, run⟩ := represents.held.exists_run
  rw [represents.held.root] at present
  exact statements_eq_ok (by rwa [List.length_map]) run

/-- The nodes of a walk are nodes of the tree. -/
theorem node_lt {event : Event} (member : event ∈ program.events) :
    event.node < tree.nodes.size := by
  rw [← program.events_outline] at member
  apply List.mem_range.mp
  cases event with
  | enter id =>
      have entered : id ∈ program.outline.events.filterMap Event.entered? :=
        List.mem_filterMap.mpr ⟨_, member, rfl⟩
      rw [Outline.entered_events] at entered
      exact represents.nodes_perm.mem_iff.mp entered
  | leave id =>
      have left : id ∈ program.outline.events.filterMap Event.left? :=
        List.mem_filterMap.mpr ⟨_, member, rfl⟩
      rw [Outline.left_events] at left
      have labelled := program.outline.map_label_parts_perm.map Mark.node
      rw [List.map_map] at labelled
      exact represents.nodes_perm.mem_iff.mp (labelled.mem_iff.mpr left)

include followed

omit represents in
/-- Nothing but the root changes in the outline of a program that goes on. -/
theorem isHeld_followedBy :
    ∀ part ∈ program.outline.parts,
      (∃ left right,
        joined.nodes[part.label.node]? = some ⟨part.tag, part.label.token, left, right⟩) ∧
      (part.tag ≠ .root -> part.IsHeld joined) := by
  obtain ⟨start, present, -⟩ := followed.held.exists_run
  rw [Program.outline, Outline.forall_parts_node]
  refine ⟨⟨⟨_, _, present⟩, by simp⟩, ?_⟩
  rw [List.forall_mem_map]
  intro statement member part isPart
  have held := (followed.held.statementsHeld statement
    (List.mem_append_left _ member)).isHeld part isPart
  exact ⟨held.present, fun _ => held⟩

/-- If the tokens are the same, a tree resembles one that goes on behind it. -/
theorem resembles
    (sameTokens : ∀ mark ∈ program.labels,
      joined.tokens[mark.token]? = tree.tokens[mark.token]?)
    (samePlaces : ∀ token ∈ tree.tokens,
      tree.source.locate token.span.start = joined.source.locate token.span.start) :
    tree.Resembles joined id (· < tree.nodes.size) tree.IsName := by
  have alike : ∀ id < tree.nodes.size, ∃ found twin,
      tree.node id = .ok found ∧ joined.node id = .ok twin ∧ found.tag = twin.tag ∧
        joined.token twin.token = tree.token found.token := by
    intro id inside
    obtain ⟨part, isPart, rfl⟩ := represents.exists_part inside
    obtain ⟨_, _, present⟩ := (represents.isHeld part isPart).present
    obtain ⟨⟨_, _, joinedPresent⟩, -⟩ := followed.isHeld_followedBy part isPart
    refine ⟨_, _, node_eq_ok present, node_eq_ok joinedPresent, rfl, ?_⟩
    rw [Tree.token, Tree.token, sameTokens _ (Program.label_mem_labels isPart)]
  have namesInside : ∀ id, tree.IsName id -> id < tree.nodes.size := by
    intro id isName
    obtain ⟨_, -, -, _, _, present⟩ := represents.exists_identifier isName
    exact (Array.getElem?_eq_some_iff.mp present).1
  refine ⟨Function.injective_id, ?_, ?_, ?_, namesInside, ?_, ?_⟩
  · intro id inside
    obtain ⟨found, twin, read, twinRead, sameTag, -⟩ := alike id inside
    rw [read, twinRead]
    exact .ok sameTag
  · intro id inside
    obtain ⟨found, twin, read, twinRead, -, sameToken⟩ := alike id inside
    simp only [location, read, twinRead, bind, Except.bind, sameToken]
    cases tokenRead : tree.token found.token with
    | error fault => rfl
    | ok token => exact samePlaces token (mem_of_token_eq_ok tokenRead)
  · intro id isName
    obtain ⟨found, twin, read, twinRead, -, sameToken⟩ := alike id (namesInside id isName)
    simp only [text, read, twinRead, bind, Except.bind, sameToken]
    cases tree.token found.token <;> rfl
  · exact fun _ found _ read isIdentifier =>
      .inl ⟨found, getElem?_of_node_eq_ok read, isIdentifier⟩
  · intro id found inside read isFunction
    have present := getElem?_of_node_eq_ok read
    refine ⟨?_, fun parts partsRead => .inr ⟨id, found, parts, present, isFunction, partsRead,
      rfl⟩⟩
    obtain ⟨part, isPart, held, rfl, tagged, -⟩ := represents.exists_isHeld present
    rw [isFunction] at tagged
    obtain ⟨⟨_, _, joinedPresent⟩, joinedHeld⟩ := followed.isHeld_followedBy part isPart
    have notReturn : part.tag ≠ .return := by simp [tagged]
    exact functionParts_eq_of_children joinedPresent tagged present isFunction
      ((joinedHeld (by simp [tagged])).children fun isReturn => absurd isReturn notReturn)
      (held.children fun isReturn => absurd isReturn notReturn)

include laterRepresents

/-- The trees share only the root. -/
theorem size_followedBy : joined.nodes.size + 1 = tree.nodes.size + later.nodes.size := by
  have total := represents.numbered.1
  have laterTotal := laterRepresents.numbered.1
  have joinedTotal := followed.numbered.1
  simp only [Program.followedBy, List.map_append, List.flatten_append, flatten_labels_map,
    List.length_append, List.length_map] at joinedTotal
  rw [root] at total laterTotal joinedTotal
  omega

end Tree.Represents

/-! ## Names that stay -/

/-- A value occurs once in a list if all values of the items are different. -/
theorem eq_of_nodup_filterMap
    {Item Value : Type}
    {items : List Item}
    {value? : Item -> Option Value}
    (distinct : (items.filterMap value?).Nodup)
    {index other : Nat}
    {item twin : Item}
    {value : Value}
    (present : items[index]? = some item)
    (twinPresent : items[other]? = some twin)
    (valued : value? item = some value)
    (twinValued : value? twin = some value) :
    index = other := by
  rw [List.Nodup, List.pairwise_filterMap, List.pairwise_iff_getElem] at distinct
  obtain ⟨inside, rfl⟩ := List.getElem?_eq_some_iff.mp present
  obtain ⟨otherInside, rfl⟩ := List.getElem?_eq_some_iff.mp twinPresent
  rcases Nat.lt_trichotomy index other with before | same | after
  · exact absurd rfl (distinct index other inside otherInside before _ valued _ twinValued)
  · exact same
  · exact absurd rfl (distinct other index otherInside inside after _ twinValued _ valued)

/-- The declarations, each with its name. -/
def NameTable.named (names : NameTable) : List (NodeId × Option QualifiedName) :=
  names.declarations.toList.map fun node => (node, names.name? node)

namespace Resolution.Precedes

variable
  {tree other : Tree}
  {resolution later : Resolution}
  (precedes : resolution.Precedes later)
  (distinct : (later.scopes.declarations.toList.filterMap Declaration.binding?).Nodup)

include precedes distinct

/-- A declaration that is found has the same name later on. -/
theorem eq_of_spells
    {node : NodeId}
    {name otherName : QualifiedName}
    (sameText : other.text node = tree.text node)
    (spells : resolution.Spells tree name node)
    (otherSpells : later.Spells other otherName node) :
    otherName = name := by
  obtain ⟨id, declaration, path, lexeme, present, isBinding, isNode, pathRead, textRead, rfl⟩ :=
    spells
  obtain ⟨otherId, otherDeclaration, otherPath, otherLexeme, otherPresent, otherIsBinding,
    otherIsNode, otherPathRead, otherTextRead, rfl⟩ := otherSpells
  have binds : declaration.binding? = some node := by
    simp [Declaration.binding?, isBinding, isNode]
  have otherBinds : otherDeclaration.binding? = some node := by
    simp [Declaration.binding?, otherIsBinding, otherIsNode]
  have presentLater := precedes.declarations.getElem?_eq_some present
  rw [← Array.getElem?_toList] at presentLater otherPresent
  obtain rfl := eq_of_nodup_filterMap distinct presentLater otherPresent binds otherBinds
  rw [Scopes.path_eq_ok_of_extends precedes.declarations pathRead, Except.ok.injEq]
    at otherPathRead
  rw [sameText, textRead, Except.ok.injEq] at otherTextRead
  rw [otherPathRead, otherTextRead]

/-- The declarations that are found come first later on, with the same names. -/
theorem named_prefix
    {names laterNames : NameTable}
    {used laterUsed : List (NodeId × NodeId)}
    (named : resolution.names tree = .ok names)
    (covers : names.Covers
      (resolution.scopes.declarations.toList.filterMap Declaration.binding?) used)
    (laterNamed : later.names other = .ok laterNames)
    (laterCovers : laterNames.Covers
      (later.scopes.declarations.toList.filterMap Declaration.binding?) laterUsed)
    (sameText : ∀ node ∈ names.declarations, other.text node = tree.text node) :
    names.named <+: laterNames.named := by
  have grown : names.declarations.toList <+: laterNames.declarations.toList := by
    obtain ⟨more, same⟩ := precedes.declarations
    rw [covers.declarations, laterCovers.declarations, same, Array.toList_appendList,
      List.filterMap_append]
    exact List.prefix_append _ _
  have sameName : ∀ node ∈ names.declarations.toList,
      laterNames.name? node = names.name? node := by
    intro node member
    have found := covers.found node (covers.declarations ▸ member)
    have laterFound := laterCovers.found node (laterCovers.declarations ▸ grown.subset member)
    obtain ⟨name, isName, isFound⟩ := Option.bind_eq_some_iff.mp found
    obtain ⟨laterName, isLaterName, isLaterFound⟩ := Option.bind_eq_some_iff.mp laterFound
    rw [isName, isLaterName, precedes.eq_of_spells distinct
      (sameText node (Array.mem_toList_iff.mp member))
      (spellsAll_of_names named name node isFound)
      (spellsAll_of_names laterNamed laterName node isLaterFound)]
  obtain ⟨more, same⟩ := grown
  rw [NameTable.named, NameTable.named, ← same, List.map_append,
    List.map_congr_left fun node member => by rw [← sameName node member]]
  exact List.prefix_append _ _

end Resolution.Precedes

/-- What is found in the first tree is found in the second one too, and before all else:
the declarations with their names, the usages, and what is reported. -/
def Tree.KeepsNames (tree joined : Tree) : Prop :=
  ∃ resolution names laterResolution laterNames,
    tree.resolution = .ok resolution ∧ resolution.names tree = .ok names ∧
      joined.resolution = .ok laterResolution ∧ laterResolution.names joined = .ok laterNames ∧
      names.named <+: laterNames.named ∧
      names.usages.toList <+: laterNames.usages.toList ∧
      resolution.diagnostics.toList <+: laterResolution.diagnostics.toList

namespace Tree.Legible

variable
  {tree joined : Tree}
  {program laterProgram : Program Mark}
  (legible : tree.Legible program)

include legible

/-- A program without statements has no names. -/
theorem keepsNames_of_nil
    (empty : program.statements = [])
    (joinedLegible : joined.Legible laterProgram) :
    tree.KeepsNames joined := by
  obtain ⟨resolution, names, resolved, named, isLexical, -⟩ := legible.exists_names
  obtain ⟨laterResolution, laterNames, laterResolved, laterNamed, -, -⟩ :=
    joinedLegible.exists_names
  have nothing : program.findings tree.lexeme = [] := by
    rw [Program.findings, empty]
    rfl
  have declarations := isLexical.declarations
  have usages := isLexical.usages
  have diagnostics := isLexical.diagnostics
  rw [nothing, List.filterMap_nil] at declarations usages diagnostics
  refine ⟨resolution, names, laterResolution, laterNames, resolved, named, laterResolved,
    laterNamed, ?_, ?_, ?_⟩
  · rw [NameTable.named, declarations]
    exact List.nil_prefix
  · rw [usages]
    exact List.nil_prefix
  · rw [diagnostics]
    exact List.nil_prefix

/-- A program that goes on keeps the names from before. -/
theorem keepsNames
    {nodes tokens : Nat}
    (joinedLegible : joined.Legible (program.followedBy laterProgram nodes tokens))
    (resembles : tree.Resembles joined id (· < tree.nodes.size) tree.IsName) :
    tree.KeepsNames joined := by
  obtain ⟨resolution, resolved, agrees⟩ := legible.exists_resolution
  obtain ⟨laterResolution, laterResolved, laterAgrees⟩ := joinedLegible.exists_resolution
  obtain ⟨once, identifiers⟩ := Program.findings_exact tree.lexeme legible.represents
  obtain ⟨laterOnce, -⟩ := Program.findings_exact joined.lexeme joinedLegible.represents
  obtain ⟨names, named, covers⟩ := agrees.exists_names once
  obtain ⟨laterNames, laterNamed, laterCovers⟩ := laterAgrees.exists_names laterOnce
  have precedes : resolution.Precedes laterResolution := by
    simp only [Tree.resolution, legible.represents.events legible.small, bind, Except.bind]
      at resolved
    simp only [Tree.resolution, joinedLegible.represents.events joinedLegible.small, bind,
      Except.bind] at laterResolved
    rw [Program.events] at resolved
    rw [Program.events, Program.followedBy, List.map_append, List.flatten_append]
      at laterResolved
    refine resembles.precedes (fun event member => ?_) resolved laterResolved
    exact legible.represents.node_lt (List.mem_append_left _ member)
  have sameText : ∀ node ∈ names.declarations, joined.text node = tree.text node := by
    intro node member
    rw [← Array.mem_toList_iff, covers.declarations] at member
    have isName : tree.IsName node :=
      .inl ((identifiers node).mp (Finding.declared_subset _ member))
    rw [resembles.text node isName]
    cases tree.text node <;> rfl
  have distinct : (laterResolution.scopes.declarations.toList.filterMap
      Declaration.binding?).Nodup := by
    rw [laterAgrees.declared]
    exact laterOnce.sublist (Finding.declared_sublist _)
  refine ⟨resolution, names, laterResolution, laterNames, resolved, named, laterResolved,
    laterNamed, ?_, ?_, ?_⟩
  · rw [← agrees.declared] at covers
    rw [← laterAgrees.declared] at laterCovers
    exact precedes.named_prefix distinct named covers laterNamed laterCovers sameText
  · rw [covers.usages, laterCovers.usages, ← agrees.map_pair, ← laterAgrees.map_pair]
    refine precedes.pairs_prefix fun usage member => ?_
    obtain ⟨_, -, -, _, present, -⟩ := exists_rel_of_mem agrees.usages member
    exact (Array.getElem?_eq_some_iff.mp present).1
  · obtain ⟨more, grown⟩ := precedes.diagnostics
    rw [grown, Array.toList_appendList]
    exact List.prefix_append _ _

end Tree.Legible

/-! ## Sources on separate lines -/

/-- The statements of the first stream mean the same in the whole. -/
theorem Stream.Joins.keepsNames
    {first second whole : Stream}
    {distance : Nat}
    (joins : Joins first second whole distance)
    {tree joined : Tree}
    (firstMade : first.tree = .ok tree)
    (wholeMade : whole.tree = .ok joined)
    {program laterProgram : Program Mark}
    {nodes tokens : Nat}
    (derived : first.Derives (program.map Mark.token))
    (legible : tree.Legible program)
    (joinedLegible : joined.Legible (program.followedBy laterProgram nodes tokens)) :
    tree.KeepsNames joined := by
  obtain ⟨rootFirst, stop, statementsDerived, ended⟩ := derived
  rw [joins.eq_lastPlace ended] at statementsDerived
  have before : ∀ mark ∈ (program.statements.map (·.labels)).flatten,
      mark.token < first.lastPlace := by
    intro mark member
    apply joins.lt_lastPlace statementsDerived
    rw [Program.map, flatten_labels_map]
    exact List.mem_map_of_mem member
  rcases Nat.eq_zero_or_pos first.lastPlace with nothing | something
  · refine legible.keepsNames_of_nil ?_ joinedLegible
    rw [List.eq_nil_iff_forall_not_mem]
    intro statement member
    have inside := before statement.label (List.mem_flatten.mpr
      ⟨_, List.mem_map_of_mem member, statement.label_mem_labels⟩)
    exact Nat.ne_zero_of_lt inside nothing
  · obtain ⟨_, _, _, _, rfl⟩ := (tree_eq_ok joins.firstOnce).mp firstMade
    obtain ⟨_, _, _, _, rfl⟩ := (tree_eq_ok joins.endsOnce).mp wholeMade
    refine legible.keepsNames joinedLegible (legible.represents.resembles
      joinedLegible.represents (fun mark member => joins.early mark.token ?_) joins.locate)
    rcases List.mem_cons.mp member with rfl | member
    · exact Nat.lt_of_le_of_lt (Nat.le_of_eq rootFirst) something
    · exact before mark member

namespace Source

/-- Whatever follows on the next line, the tree of a source goes on behind its statements,
and the names of the source keep their meaning. -/
theorem later_lines_keep_names
    {first second : Source}
    {tree later : Tree}
    (firstMade : first.tree = .ok tree)
    (secondMade : second.tree = .ok later)
    (short : (first.followedBy second).text.utf8ByteSize + 1 < wordSize)
    (small : tree.nodes.size + later.nodes.size ≤ Node.absent + 1) :
    ∃ joined,
      (first.followedBy second).tree = .ok joined ∧
        joined.Continues tree later ∧ tree.KeepsNames joined := by
  obtain ⟨firstStream, firstStreamMade, firstMade⟩ := exists_stream_of_tree firstMade
  obtain ⟨secondStream, secondStreamMade, secondMade⟩ := exists_stream_of_tree secondMade
  obtain ⟨whole, wholeMade, joins⟩ := exists_joins firstStreamMade secondStreamMade
  have located := hasLocations_of_stream wholeMade short
  obtain ⟨joined, program, laterProgram, joinedMade, represents, derived, laterRepresents,
    followed, followedDerived, nodes⟩ := joins.exists_tree located firstMade secondMade
  have size := represents.size_followedBy laterRepresents followed
  have nonempty : 0 < later.nodes.size := laterRepresents.numbered.le
  have shorter : first.text.utf8ByteSize + 1 < wordSize := by
    simp only [followedBy, String.utf8ByteSize_append] at short
    omega
  have legible := Stream.legible joins.firstOnce
    (hasLocations_of_stream firstStreamMade shorter) firstMade represents derived (by omega)
  have joinedLegible := Stream.legible joins.endsOnce located joinedMade followed
    followedDerived (by omega)
  have sameTokens : tree.tokens = firstStream.tokens := by
    obtain ⟨_, _, _, _, rfl⟩ := (Stream.tree_eq_ok joins.firstOnce).mp firstMade
    rfl
  refine ⟨joined, ?_, ⟨⟨_, _, represents.statements_eq, laterRepresents.statements_eq, ?_⟩,
    ⟨program, laterProgram, represents, laterRepresents, ?_⟩, nodes⟩,
    joins.keepsNames firstMade joinedMade derived legible joinedLegible⟩
  · simp only [Source.tree, wholeMade, joinedMade]
  · rw [followed.statements_eq, Program.followedBy, List.map_append, List.map_map, List.map_map]
    congr 3
    funext statement
    simp only [Function.comp_apply, Statement.label_map, Mark.shift]
  · rw [sameTokens]
    exact followed

/-- A function that uses a name without a declaration, with a comment behind it. -/
def lacking : Source :=
  .ofText "fn f(x) \x7b return x + y \x7d // f" none

/-- Declarations of the name that was missing, and of the function once more. -/
def redeclaring : Source :=
  .ofText "const y = f; var f = y" none

theorem later_lines_keep_names_redeclaring :
    ∃ tree later,
      lacking.tree = .ok tree ∧ redeclaring.tree = .ok later ∧
        (lacking.followedBy redeclaring).text.utf8ByteSize + 1 < wordSize ∧
        tree.nodes.size + later.nodes.size ≤ Node.absent + 1 ∧
        ∃ joined,
          (lacking.followedBy redeclaring).tree = .ok joined ∧
            joined.Continues tree later ∧ tree.KeepsNames joined ∧
            (do
              let resolution <- joined.resolution
              let names <- resolution.names joined
              return (names.declarations.toList.map names.name?, names.usages,
                resolution.diagnostics.map Diagnostic.cause)) =
              .ok ([some ⟨"0::f#1"⟩, some ⟨"0::9::x#2"⟩, some ⟨"0::y#10"⟩, some ⟨"0::f#14"⟩],
                #[(3, 2), (11, 1), (15, 10)], #[.undeclared "y", .redeclared "f"]) := by
  obtain ⟨tree, later, joined, made, laterMade, joinedMade, short, small, found⟩ :
      ∃ tree later joined,
        lacking.tree = .ok tree ∧ redeclaring.tree = .ok later ∧
          (lacking.followedBy redeclaring).tree = .ok joined ∧
          (lacking.followedBy redeclaring).text.utf8ByteSize + 1 < wordSize ∧
          tree.nodes.size + later.nodes.size ≤ Node.absent + 1 ∧
          (do
            let resolution <- joined.resolution
            let names <- resolution.names joined
            return (names.declarations.toList.map names.name?, names.usages,
              resolution.diagnostics.map Diagnostic.cause)) =
            .ok ([some ⟨"0::f#1"⟩, some ⟨"0::9::x#2"⟩, some ⟨"0::y#10"⟩, some ⟨"0::f#14"⟩],
              #[(3, 2), (11, 1), (15, 10)], #[.undeclared "y", .redeclared "f"]) := by
    refine ⟨_, _, _, by cbv, by cbv, by cbv, ?_, ?_, ?_⟩ <;> cbv
  obtain ⟨_, sameJoined, continues, keepsNames⟩ :=
    later_lines_keep_names made laterMade short small
  cases joinedMade.symm.trans sameJoined
  exact ⟨tree, later, made, laterMade, short, small, joined, joinedMade, continues, keepsNames,
    found⟩

end Source

end Frontend
