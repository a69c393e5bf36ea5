import Frontend.Proofs.Except
import Frontend.Proofs.Syntax.Outline

/-!
# Walks through phrases

The walk through a phrase follows its structure. The walk through a flat tree that
holds the phrase is that walk: every node names the children that the phrase has,
and since they come before it, the paths are short enough.
-/

namespace Frontend

namespace Event

/-- Enter a node, walk through what is inside, and leave the node. -/
def around (id : NodeId) (inner : List Event) : List Event :=
  .enter id :: inner ++ [.leave id]

/-- A fold over a walk into a node and out of it. -/
theorem foldlM_around
    {Failure State : Type}
    (step : State -> Event -> Except Failure State)
    (state : State)
    (id : NodeId)
    (inner : List Event) :
    (around id inner).foldlM step state =
      step state (.enter id) >>= fun entered =>
        inner.foldlM step entered >>= fun walked => step walked (.leave id) := by
  simp [around]

end Event

/-- The walk through an identifier. -/
def Mark.events (mark : Mark) : List Event :=
  Event.around mark.node []

/-- The walk through an expression. -/
def Expression.events : Expression Mark -> List Event
  | .identifier mark => mark.events
  | .literal mark _ => mark.events
  | .unary mark _ operand => Event.around mark.node operand.events
  | .binary mark _ left right => Event.around mark.node (left.events ++ right.events)
  | .call mark callee arguments =>
      Event.around mark.node (callee.events ++ (arguments.map events).flatten)

/-- The walk through a whole expression. -/
def Whole.events (whole : Whole Mark) : List Event :=
  Event.around whole.label.node whole.inner.events

/-- The walk through a statement. -/
def Statement.events : Statement Mark -> List Event
  | .binding mark _ name value => Event.around mark.node (name.events ++ value.events)
  | .assign mark target value => Event.around mark.node (target.events ++ value.events)
  | .evaluate mark expression => Event.around mark.node expression.events
  | .return mark value => Event.around mark.node (value.toList.map Whole.events).flatten
  | .block mark statements => Event.around mark.node (statements.map events).flatten
  | .function mark name parameters bodyMark body =>
      Event.around mark.node
        (name.events ++ (parameters.map Mark.events).flatten ++
          Event.around bodyMark.node (body.map events).flatten)

/-- The walk through a program. -/
def Program.events (program : Program Mark) : List Event :=
  Event.around program.label.node (program.statements.map Statement.events).flatten

/-! ## Reading a tree -/

namespace Tree

variable {tree : Tree}

theorem node_eq_ok
    {id : NodeId}
    {node : Node}
    (present : tree.nodes[id]? = some node) :
    tree.node id = .ok node := by
  rw [Tree.node, present]

theorem getElem?_of_node_eq_ok
    {id : NodeId}
    {node : Node}
    (read : tree.node id = .ok node) :
    tree.nodes[id]? = some node := by
  unfold Tree.node at read
  split at read
  next found present =>
    cases read
    exact present
  next => cases read

theorem mem_of_token_eq_ok
    {id : TokenId}
    {token : Token}
    (read : tree.token id = .ok token) :
    token ∈ tree.tokens := by
  unfold Tree.token at read
  split at read
  next found present =>
    cases read
    exact Array.mem_of_getElem? present
  next => cases read

/-- The words that stand at a place are the run there. -/
theorem run_eq_ok
    {start stop : Nat}
    {words : List Nat}
    (standing : StandsAt tree.extra start words)
    (length : start + words.length = stop) :
    tree.run start stop = .ok words := by
  subst length
  rw [run, if_neg (by omega), if_neg (Nat.not_lt.mpr standing.1), standing.2]

/-- Each of the words that stand at a place can be read. -/
theorem word_eq_ok
    {start : Nat}
    {words : List Nat}
    (standing : StandsAt tree.extra start words)
    (offset : Nat)
    {word : Nat}
    (present : words[offset]? = some word) :
    tree.word (start + offset) = .ok word := by
  have inside : offset < words.length := (List.getElem?_eq_some_iff.mp present).1
  rw [← standing.2, Array.getElem?_toList, Array.getElem?_extract] at present
  split at present
  · rw [Tree.word, present]
  · cases present

theorem statements_eq_ok
    {id token start : Nat}
    {tag : Tag}
    {words : List Nat}
    (present : tree.nodes[id]? = some ⟨tag, token, start, start + words.length⟩)
    (standing : StandsAt tree.extra start words) :
    tree.statements id = .ok words := by
  simp only [statements, node_eq_ok present]
  exact run_eq_ok standing rfl

theorem functionParts_eq_ok
    {id name token header start body : Nat}
    {parameters : List Nat}
    (present : tree.nodes[id]? = some ⟨.function, token, name, header⟩)
    (bounds : StandsAt tree.extra header [start, start + parameters.length, body])
    (standing : StandsAt tree.extra start parameters) :
    tree.functionParts id = .ok ⟨name, parameters, body⟩ := by
  have startRead : tree.word header = .ok start := word_eq_ok bounds 0 rfl
  have stopRead := word_eq_ok bounds 1 rfl
  have bodyRead := word_eq_ok bounds 2 rfl
  have parametersRead := run_eq_ok standing rfl
  simp only [functionParts, node_eq_ok present, bind, Except.bind, startRead, stopRead,
    parametersRead, bodyRead]
  rfl

/-- The children of a function are its parts. -/
theorem children_of_functionParts
    {id : NodeId}
    {found : Node}
    {parts : FunctionParts}
    (present : tree.nodes[id]? = some found)
    (isFunction : found.tag = .function)
    (partsRead : tree.functionParts id = .ok parts) :
    tree.children id = .ok (parts.name :: parts.parameters ++ [parts.body]) := by
  simp only [children, node_eq_ok present, bind, Except.bind, isFunction, partsRead]
  rfl

/-- Functions with the same children have the same parts. -/
theorem functionParts_eq_of_children
    {other : Tree}
    {id : NodeId}
    {found twin : Node}
    {children : List NodeId}
    (present : tree.nodes[id]? = some found)
    (isFunction : found.tag = .function)
    (otherPresent : other.nodes[id]? = some twin)
    (otherIsFunction : twin.tag = .function)
    (read : tree.children id = .ok children)
    (otherRead : other.children id = .ok children) :
    tree.functionParts id = other.functionParts id := by
  simp only [Tree.children, node_eq_ok present, bind, Except.bind, isFunction] at read
  simp only [Tree.children, node_eq_ok otherPresent, bind, Except.bind, otherIsFunction]
    at otherRead
  obtain ⟨parts, partsRead, same⟩ := exists_of_bind_eq_ok read
  obtain ⟨others, othersRead, otherSame⟩ := exists_of_bind_eq_ok otherRead
  rw [partsRead, othersRead, Except.ok.injEq]
  obtain ⟨name, rest⟩ := List.cons.inj (Except.ok.inj (same.trans otherSame.symm))
  obtain ⟨parameters, body⟩ := List.append_inj' rest rfl
  cases parts
  cases others
  rw [FunctionParts.mk.injEq]
  exact ⟨name, parameters, List.singleton_inj.mp body⟩

theorem callParts_eq_ok
    {id callee token header start : Nat}
    {arguments : List Nat}
    (present : tree.nodes[id]? = some ⟨.call, token, callee, header⟩)
    (bounds : StandsAt tree.extra header [start, start + arguments.length])
    (standing : StandsAt tree.extra start arguments) :
    tree.callParts id = .ok ⟨callee, arguments⟩ := by
  have startRead : tree.word header = .ok start := word_eq_ok bounds 0 rfl
  have stopRead := word_eq_ok bounds 1 rfl
  have argumentsRead := run_eq_ok standing rfl
  simp only [callParts, node_eq_ok present, bind, Except.bind, startRead, stopRead,
    argumentsRead]
  rfl

/-- The value of a return is absent just where its word says so. -/
theorem returnValue_eq_ok
    {id token : Nat}
    {value : Option (Whole Mark)}
    (present : tree.nodes[id]? = some ⟨.return, token, Node.valueWord value, 0⟩)
    (valueHeld : ∀ whole ∈ value, whole.Holds tree.nodes tree.extra)
    (small : tree.nodes.size ≤ Node.absent) :
    tree.returnValue id = .ok (value.map (·.label.node)) := by
  simp only [returnValue, node_eq_ok present, bind, Except.bind]
  cases value with
  | none => rfl
  | some whole =>
      have inside := (Array.getElem?_eq_some_iff.mp (valueHeld whole rfl).present).1
      have different : Node.valueWord (some whole) ≠ Node.absent :=
        Nat.ne_of_lt (Nat.lt_of_lt_of_le inside small)
      rw [if_neg different]
      rfl

/-- A walk goes around the walks through the children. -/
theorem eventsWithin_eq_ok
    {id depth : Nat}
    {children : List NodeId}
    {inner : List (List Event)}
    {events : List Event}
    (found : tree.children id = .ok children)
    (walked : children.mapM (tree.eventsWithin depth) = .ok inner)
    (flat : inner.flatten = events) :
    tree.eventsWithin (depth + 1) id = .ok (Event.around id events) := by
  rw [eventsWithin, found, ← flat]
  simp only [bind, Except.bind, walked]
  rfl

end Tree

/-! ## Outlines in a tree -/

/-- The tree has the outermost node of the outline, with its main token and its
children. The child of a return can only be told if no node has the number that stands
for an absent one. -/
structure Outline.IsHeld (tree : Tree) (outline : Outline Mark) : Prop where
  present : ∃ left right,
    tree.nodes[outline.label.node]? = some ⟨outline.tag, outline.label.token, left, right⟩
  children : (outline.tag = .return -> tree.nodes.size ≤ Node.absent) ->
    tree.children outline.label.node = .ok (outline.children.map (·.label.node))

section Holding

variable {tree : Tree}

theorem Outline.isHeld_leaf
    {mark : Mark}
    {tag : Tag}
    (outer : tag.isLeaf = true)
    (present : tree.nodes[mark.node]? = some ⟨tag, mark.token, 0, 0⟩) :
    ∀ part ∈ (leaf tag mark).parts, part.IsHeld tree := by
  have held : (leaf tag mark).IsHeld tree := by
    refine ⟨⟨0, 0, present⟩, fun _ => ?_⟩
    simp only [leaf, label_node, children_node, List.map_nil, Tree.children,
      Tree.node_eq_ok present]
    cases tag with
    | identifier | literal => rfl
    | _ => cases outer
  simpa [leaf, parts_node] using held

/-- A tree that holds an expression has the nodes of its outline. -/
theorem Expression.Holds.isHeld
    {expression : Expression Mark}
    (held : expression.Holds tree.nodes tree.extra) :
    ∀ part ∈ expression.outline.parts, part.IsHeld tree := by
  induction held with
  | identifier present =>
      rw [outline]
      exact Outline.isHeld_leaf rfl present
  | literal present =>
      rw [outline]
      exact Outline.isHeld_leaf rfl present
  | @unary mark operator operand present _ operandHeld =>
      rw [outline, Outline.forall_parts_node]
      refine ⟨⟨⟨_, _, present⟩, fun _ => ?_⟩, by simpa using operandHeld⟩
      simp only [Outline.label_node, Outline.children_node, Tree.children,
        Tree.node_eq_ok present, List.map_cons, List.map_nil, label_outline]
      rfl
  | @binary mark operator left right present _ _ leftHeld rightHeld =>
      rw [outline, Outline.forall_parts_node]
      refine ⟨⟨⟨_, _, present⟩, fun _ => ?_⟩, by simpa using ⟨leftHeld, rightHeld⟩⟩
      simp only [Outline.label_node, Outline.children_node, Tree.children,
        Tree.node_eq_ok present, List.map_cons, List.map_nil, label_outline]
      rfl
  | @call mark callee arguments header first present bounds run _ _ calleeHeld
      argumentsHeld =>
      rw [outline, Outline.forall_parts_node]
      refine ⟨⟨⟨_, _, present⟩, fun _ => ?_⟩, by simpa using ⟨calleeHeld, argumentsHeld⟩⟩
      have parts := Tree.callParts_eq_ok present (by simpa using bounds) run
      simp only [Outline.label_node, Outline.children_node, Tree.children,
        Tree.node_eq_ok present, bind, Except.bind, parts, List.map_cons, List.map_map,
        Function.comp_def, label_outline]
      rfl

theorem Whole.Holds.isHeld
    {whole : Whole Mark}
    (held : whole.Holds tree.nodes tree.extra) :
    ∀ part ∈ whole.outline.parts, part.IsHeld tree := by
  rw [outline, Outline.forall_parts_node]
  refine ⟨⟨⟨_, _, held.present⟩, fun _ => ?_⟩, by simpa using held.innerHeld.isHeld⟩
  simp only [Outline.label_node, Outline.children_node, Tree.children,
    Tree.node_eq_ok held.present, List.map_cons, List.map_nil, Expression.label_outline]
  rfl

/-- A node with a run of statements has them as its children. -/
theorem Tree.isHeld_run
    {tag : Tag}
    (isRun : tag = .root ∨ tag = .block)
    {mark : Mark}
    {statements : List (Statement Mark)}
    {first : Nat}
    (present : tree.nodes[mark.node]? =
      some ⟨tag, mark.token, first, first + statements.length⟩)
    (run : StandsAt tree.extra first (statements.map (·.label.node))) :
    (Outline.node mark tag (statements.map Statement.outline)).IsHeld tree := by
  refine ⟨⟨_, _, present⟩, fun _ => ?_⟩
  have read := Tree.statements_eq_ok (by simpa using present) run
  simp only [Outline.label_node, Outline.children_node, Tree.children,
    Tree.node_eq_ok present, List.map_map, Function.comp_def, Statement.label_outline]
  rcases isRun with rfl | rfl
  · exact read
  · exact read

/-- A tree that holds a statement has the nodes of its outline. -/
theorem Statement.Holds.isHeld
    {statement : Statement Mark}
    (held : statement.Holds tree.nodes tree.extra) :
    ∀ part ∈ statement.outline.parts, part.IsHeld tree := by
  induction held with
  | @binding mark name isConstant value present nameHeld valueHeld =>
      rw [outline, Outline.forall_parts_node]
      refine ⟨⟨⟨_, _, present⟩, fun _ => ?_⟩,
        by simpa using ⟨Outline.isHeld_leaf rfl nameHeld, valueHeld.isHeld⟩⟩
      simp only [Outline.label_node, Outline.children_node, Tree.children,
        Tree.node_eq_ok present]
      cases isConstant <;> rfl
  | @assign mark target value present targetHeld valueHeld =>
      rw [outline, Outline.forall_parts_node]
      refine ⟨⟨⟨_, _, present⟩, fun _ => ?_⟩,
        by simpa using ⟨targetHeld.isHeld, valueHeld.isHeld⟩⟩
      simp only [Outline.label_node, Outline.children_node, Tree.children,
        Tree.node_eq_ok present]
      rfl
  | @evaluate mark expression present expressionHeld =>
      rw [outline, Outline.forall_parts_node]
      refine ⟨⟨⟨_, _, present⟩, fun _ => ?_⟩, by simpa using expressionHeld.isHeld⟩
      simp only [Outline.label_node, Outline.children_node, Tree.children,
        Tree.node_eq_ok present]
      rfl
  | @«return» mark value present valueHeld =>
      rw [outline, Outline.forall_parts_node]
      refine ⟨⟨⟨_, _, present⟩, fun small => ?_⟩, ?_⟩
      · simp only [Outline.label_node, Outline.children_node, Tree.children,
          Tree.node_eq_ok present, bind, Except.bind,
          Tree.returnValue_eq_ok present valueHeld (small rfl)]
        cases value <;> rfl
      · simpa using fun whole member => (valueHeld whole member).isHeld
  | @block mark statements first present run _ statementsHeld =>
      rw [outline, Outline.forall_parts_node]
      exact ⟨Tree.isHeld_run (.inr rfl) present run, by simpa using statementsHeld⟩
  | @function mark name bodyMark parameters body header first bodyFirst present bounds
      run nameHeld parametersHeld bodyPresent bodyRun _ bodyHeld =>
      have parts := Tree.functionParts_eq_ok present (by simpa using bounds) run
      have blockHeld :
          ∀ part ∈ (Outline.node bodyMark .block (body.map outline)).parts,
            part.IsHeld tree := by
        rw [Outline.forall_parts_node]
        exact ⟨Tree.isHeld_run (.inr rfl) bodyPresent bodyRun, by simpa using bodyHeld⟩
      rw [outline, Outline.forall_parts_node]
      refine ⟨⟨⟨_, _, present⟩, fun _ => ?_⟩, ?_⟩
      · simp only [Outline.label_node, Outline.children_node, Tree.children,
          Tree.node_eq_ok present, bind, Except.bind, parts, Outline.leaf, List.map_cons,
          List.map_append, List.map_map, List.map_nil, Function.comp_def]
        rfl
      · simp only [List.cons_append, List.forall_mem_cons, List.forall_mem_append,
          List.forall_mem_map]
        exact ⟨Outline.isHeld_leaf rfl nameHeld, fun parameter member =>
          Outline.isHeld_leaf rfl (parametersHeld parameter member), blockHeld, by simp⟩

/-- A tree that represents a program has the nodes of its outline. -/
theorem Tree.Represents.isHeld
    {program : Program Mark}
    (represents : tree.Represents program) :
    ∀ part ∈ program.outline.parts, part.IsHeld tree := by
  obtain ⟨first, present, run⟩ := represents.held.exists_run
  rw [Program.outline, Outline.forall_parts_node]
  refine ⟨Tree.isHeld_run (.inl rfl) present run, ?_⟩
  simpa using fun statement member => (represents.held.statementsHeld statement member).isHeld

/-- Every node of the tree is one of the outline. -/
theorem Tree.Represents.exists_isHeld
    {program : Program Mark}
    (represents : tree.Represents program)
    {id : NodeId}
    {found : Node}
    (present : tree.nodes[id]? = some found) :
    ∃ part ∈ program.outline.parts,
      part.IsHeld tree ∧ part.label.node = id ∧ part.tag = found.tag ∧
        part.label.token = found.token := by
  obtain ⟨part, isPart, rfl⟩ :=
    represents.exists_part (Array.getElem?_eq_some_iff.mp present).1
  have held := represents.isHeld part isPart
  obtain ⟨left, right, samePresent⟩ := held.present
  rw [present, Option.some.injEq] at samePresent
  exact ⟨part, isPart, held, rfl, by rw [samePresent], by rw [samePresent]⟩

end Holding

/-! ## Walking through a tree -/

/-- The walk through an outline. -/
def Outline.events : Outline Mark -> List Event
  | .node mark _ children => Event.around mark.node (children.map events).flatten

theorem Expression.events_outline (expression : Expression Mark) :
    expression.outline.events = expression.events := by
  induction expression with
  | identifier | literal => simp [outline, Outline.leaf, Outline.events, events, Mark.events]
  | unary mark operator operand same => simp [outline, Outline.events, events, same]
  | binary mark operator left right leftSame rightSame =>
      simp [outline, Outline.events, events, leftSame, rightSame]
  | call mark callee arguments calleeSame argumentsSame =>
      have same : (arguments.map outline).map Outline.events = arguments.map events := by
        rw [List.map_map]
        exact List.map_congr_left argumentsSame
      simp [outline, Outline.events, events, calleeSame, same]

theorem Whole.events_outline (whole : Whole Mark) :
    whole.outline.events = whole.events := by
  simp [outline, Outline.events, events, Expression.events_outline]

theorem Statement.events_outline (statement : Statement Mark) :
    statement.outline.events = statement.events := by
  induction statement with
  | binding | assign | evaluate =>
      simp [outline, Outline.leaf, Outline.events, events, Mark.events, Whole.events_outline]
  | return_ mark value =>
      cases value <;> simp [outline, Outline.events, events, Whole.events_outline]
  | block mark statements same =>
      have statementsSame : (statements.map outline).map Outline.events =
          statements.map events := by
        rw [List.map_map]
        exact List.map_congr_left same
      simp [outline, Outline.events, events, statementsSame]
  | function mark name parameters bodyMark body same =>
      have bodySame : (body.map outline).map Outline.events = body.map events := by
        rw [List.map_map]
        exact List.map_congr_left same
      have parametersSame : (parameters.map (Outline.leaf .identifier)).map Outline.events =
          parameters.map Mark.events := by
        simp [Outline.leaf, Outline.events, Mark.events]
      simp [outline, Outline.events, events, bodySame, parametersSame, Outline.leaf,
        Mark.events]

theorem Program.events_outline (program : Program Mark) :
    program.outline.events = program.events := by
  have same : (program.statements.map Statement.outline).map Outline.events =
      program.statements.map Statement.events := by
    rw [List.map_map]
    exact List.map_congr_left fun statement _ => statement.events_outline
  rw [outline, Outline.events, events, same]

section Walking

variable {tree : Tree} {start stop : Nat}

/-- The walk through an outline in a tree, on paths as long as the numbers of its nodes
allow. -/
theorem Outline.eventsWithin_eq
    (small : tree.nodes.size ≤ Node.absent)
    {outline : Outline Mark}
    (held : ∀ part ∈ outline.parts, part.IsHeld tree)
    (numbered : Numbered start stop outline.labels)
    {depth : Nat}
    (deep : stop ≤ depth) :
    tree.eventsWithin depth outline.label.node = .ok outline.events := by
  induction outline generalizing start stop depth with
  | node mark tag children childrenWalked =>
      rw [forall_parts_node] at held
      rw [labels] at numbered
      obtain ⟨childrenNumbered, rfl⟩ := numbered.of_concat
      obtain ⟨more, rfl⟩ := Nat.exists_eq_add_of_lt deep
      have walked : ∀ child ∈ children,
          tree.eventsWithin (mark.node + more) child.label.node = .ok child.events := by
        intro child member
        obtain ⟨start, stop, -, below, childNumbered⟩ :=
          childrenNumbered.exists_of_mem_flatten (List.mem_map_of_mem member)
        exact childrenWalked child member (held.2 child member) childNumbered
          (Nat.le_trans below (Nat.le_add_right mark.node more))
      rw [events]
      exact Tree.eventsWithin_eq_ok (held.1.children fun _ => small) (mapM_map_eq_ok walked) rfl

/-- The walk through a tree is that through the program it holds. -/
theorem Tree.Represents.events
    {program : Program Mark}
    (represents : tree.Represents program)
    (small : tree.nodes.size ≤ Node.absent) :
    tree.events = .ok program.events := by
  have held := represents.isHeld
  rw [Program.outline, Outline.forall_parts_node] at held
  obtain ⟨_, _, present⟩ := held.1.present
  have nonempty : ¬ tree.nodes.isEmpty := by
    have inside := (Array.getElem?_eq_some_iff.mp present).1
    rw [Array.isEmpty_iff_size_eq_zero]
    exact Nat.ne_of_gt (Nat.zero_lt_of_lt inside)
  have walked : ∀ outline ∈ program.statements.map Statement.outline,
      tree.eventsWithin tree.nodes.size outline.label.node = .ok outline.events := by
    intro outline member
    obtain ⟨statement, statementMember, rfl⟩ := List.mem_map.mp member
    obtain ⟨start, stop, -, below, statementNumbered⟩ :=
      represents.numbered.exists_of_mem_flatten (List.mem_map_of_mem statementMember)
    rw [← statement.labels_outline] at statementNumbered
    exact Outline.eventsWithin_eq small (held.2 _ member) statementNumbered below
  rw [Tree.events, if_neg nonempty, Tree.eventsFrom, ← represents.held.root,
    ← program.events_outline, Program.outline, Outline.events]
  exact Tree.eventsWithin_eq_ok (held.1.children fun _ => small) (mapM_map_eq_ok walked) rfl

end Walking

end Frontend
