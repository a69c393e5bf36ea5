import Frontend.Proofs.Scope.Agreement
import Frontend.Proofs.Syntax.Reaching

/-!
# Resolution is balanced

The walk through a statement or a whole expression closes every scope that it has opened.
What it leaves behind are records, and in the window of the names in force the name that a
declaration introduces around itself. Every scope and every declared name is recorded once.
-/

namespace Frontend

/-- The node of a record, if it is that of a scope. -/
def Declaration.anchor? (declaration : Declaration) : Option NodeId :=
  if declaration.isBinding then none else some declaration.node

/-- The record is that of a name which is declared at this depth. -/
def Scopes.Declares (scopes : Scopes) (depth : Nat) (id : DeclId) (name : NodeId) : Prop :=
  ∃ declaration, scopes.declarations[id]? = some declaration ∧
    declaration.isBinding = true ∧ declaration.node = name ∧ declaration.depth = depth

namespace Resolution

variable
  {before middle after : Resolution}
  {introduced anchors bindings moreIntroduced moreAnchors moreBindings : List NodeId}

/-- What a stretch of a walk restores. It leaves names that it has introduced in force, and
records of scopes and names. -/
structure Keeps
    (introduced anchors bindings : List NodeId)
    (before after : Resolution) : Prop where
  frames : after.scopes.frames = before.scopes.frames
  depth : after.scopes.depth = before.scopes.depth
  /-- Every scope is opened and closed once. -/
  entered : after.scopes.entered = before.scopes.entered + anchors.length
  exited : after.scopes.exited = before.scopes.exited + anchors.length
  inExpression : after.inExpression = before.inExpression
  predeclared : after.predeclared = before.predeclared
  visible : ∃ ids, after.scopes.visible = ids ++ before.scopes.visible ∧
    List.Forall₂ (after.scopes.Declares before.scopes.depth) ids introduced.reverse
  records : ∃ added,
    after.scopes.declarations.toList = before.scopes.declarations.toList ++ added ∧
      added.filterMap Declaration.anchor? = anchors ∧
      added.filterMap Declaration.binding? = bindings

namespace Keeps

/-- Nothing happens to the scopes. -/
theorem of_scopes_eq
    (scopes : after.scopes = before.scopes)
    (inExpression : after.inExpression = before.inExpression)
    (predeclared : after.predeclared = before.predeclared) :
    Keeps [] [] [] before after where
  frames := by rw [scopes]
  depth := by rw [scopes]
  entered := by rw [scopes, List.length_nil, Nat.add_zero]
  exited := by rw [scopes, List.length_nil, Nat.add_zero]
  inExpression := inExpression
  predeclared := predeclared
  visible := ⟨[], by rw [scopes]; rfl, .nil⟩
  records := ⟨[], by rw [scopes, List.append_nil], rfl, rfl⟩

/-- Records stay. -/
theorem declares
    (keeps : Keeps introduced anchors bindings before after)
    {depth : Nat}
    {id : DeclId}
    {name : NodeId}
    (declares : before.scopes.Declares depth id name) :
    after.scopes.Declares depth id name := by
  obtain ⟨declaration, present, rest⟩ := declares
  obtain ⟨added, grown, -, -⟩ := keeps.records
  refine ⟨declaration, ?_, rest⟩
  rw [← Array.getElem?_toList] at present ⊢
  rw [grown]
  exact List.getElem?_append_left (List.getElem?_eq_some_iff.mp present).1 ▸ present

theorem append
    (first : Keeps introduced anchors bindings before middle)
    (second : Keeps moreIntroduced moreAnchors moreBindings middle after) :
    Keeps (introduced ++ moreIntroduced) (anchors ++ moreAnchors) (bindings ++ moreBindings)
      before after where
  frames := second.frames.trans first.frames
  depth := second.depth.trans first.depth
  entered := by rw [second.entered, first.entered, List.length_append, Nat.add_assoc]
  exited := by rw [second.exited, first.exited, List.length_append, Nat.add_assoc]
  inExpression := second.inExpression.trans first.inExpression
  predeclared := second.predeclared.trans first.predeclared
  visible := by
    obtain ⟨ids, window, names⟩ := first.visible
    obtain ⟨more, longer, moreNames⟩ := second.visible
    refine ⟨more ++ ids, by rw [longer, window, List.append_assoc], ?_⟩
    rw [List.reverse_append]
    rw [first.depth] at moreNames
    exact List.rel_append moreNames (names.imp fun _ _ declares => second.declares declares)
  records := by
    obtain ⟨added, grown, rfl, rfl⟩ := first.records
    obtain ⟨more, grownMore, rfl, rfl⟩ := second.records
    exact ⟨added ++ more, by rw [grownMore, grown, List.append_assoc], by simp, by simp⟩

end Keeps

/-- The state in which a scope has opened at a node. -/
def opened (before : Resolution) (node : NodeId) (location : Location) : Resolution :=
  { before with scopes := before.scopes.enter node location.line location.column }

/-- Closing a scope leaves nothing of it in force. -/
theorem Keeps.close
    {node : NodeId}
    {location : Location}
    (keeps : Keeps introduced anchors bindings (before.opened node location) after) :
    ∃ scopes, after.scopes.leave = .ok scopes ∧
      Keeps [] (node :: anchors) bindings before { after with scopes } := by
  obtain ⟨ids, window, -⟩ := keeps.visible
  obtain ⟨added, grown, rfl, rfl⟩ := keeps.records
  dsimp only [opened, Scopes.enter] at window grown
  have length : after.scopes.visible.length - before.scopes.visible.length = ids.length := by
    rw [window, List.length_append, Nat.add_sub_cancel]
  refine ⟨_, Scopes.leave_eq_ok.mpr ⟨_, _, _, keeps.frames, keeps.depth, rfl⟩, rfl, rfl,
    keeps.entered.trans (Nat.succ_add_eq_add_succ _ _), congrArg (· + 1) keeps.exited,
    keeps.inExpression, keeps.predeclared, ⟨[], ?_, .nil⟩, ?_⟩
  · dsimp only
    rw [length, window, List.drop_left]
    rfl
  · rw [Array.toList_push, List.append_assoc] at grown
    exact ⟨_, grown, by simp [Declaration.anchor?], by simp [Declaration.binding?]⟩

/-! ## Steps -/

/-- A name is declared, and comes into force. -/
theorem exists_declare
    {tree : Tree}
    {mark : Mark}
    {tag : Tag}
    {left right : Nat}
    (before : Resolution)
    (located : tree.Locates mark)
    (present : tree.nodes[mark.node]? = some ⟨tag, mark.token, left, right⟩) :
    ∃ after, before.declare tree mark.node = .ok after ∧
      Resolution.Keeps [mark.node] [] [mark.node] before after := by
  simp only [declare, located.text_eq_ok present, located.location_eq_ok present, bind,
    Except.bind]
  refine ⟨_, rfl, ?_⟩
  split
  all_goals
    refine ⟨rfl, rfl, rfl, rfl, rfl, rfl, ⟨[before.scopes.nextId], rfl, .cons ?_ .nil⟩, _,
      Array.toList_push, rfl, rfl⟩
    exact ⟨_, Array.getElem?_push_size, rfl, rfl, rfl⟩

end Resolution

section Steps

variable {tree : Tree} {outline : Outline Mark} {before : Resolution}

open Resolution

namespace Outline.Stands

variable (stands : outline.Stands tree)

include stands

theorem enter_eq_self (isQuiet : outline.tag.isQuiet = true) :
    before.step tree (.enter outline.label.node) = .ok before := by
  obtain ⟨left, right, present⟩ := stands.present
  simp only [step, enter, Tree.node_eq_ok present]
  cases tagged : outline.tag <;> simp [tagged, Tag.isQuiet] at isQuiet <;> rfl

theorem leave_eq_self (isQuiet : outline.tag.isQuiet = true ∨ outline.tag = .identifier) :
    before.step tree (.leave outline.label.node) = .ok before := by
  obtain ⟨left, right, present⟩ := stands.present
  simp only [step, leave, Tree.node_eq_ok present]
  cases tagged : outline.tag <;> simp [tagged, Tag.isQuiet] at isQuiet <;> rfl

theorem enterScope_eq :
    before.enterScope tree outline.label.node =
      .ok (before.opened outline.label.node (tree.placeOf outline.label)) := by
  obtain ⟨left, right, present⟩ := stands.present
  simp only [enterScope, stands.located.location_eq_ok present, bind, Except.bind]
  rfl

theorem enter_eq_opened (opens : outline.tag = .root ∨ outline.tag = .block) :
    before.step tree (.enter outline.label.node) =
      .ok (before.opened outline.label.node (tree.placeOf outline.label)) := by
  obtain ⟨left, right, present⟩ := stands.present
  simp only [step, enter, Tree.node_eq_ok present]
  rcases opens with tagged | tagged
  · rw [tagged]
    exact stands.enterScope_eq
  · rw [tagged]
    exact stands.enterScope_eq

theorem leave_eq_closed
    (opens : outline.tag = .root ∨ outline.tag = .block ∨ outline.tag = .function)
    {scopes : Scopes}
    (closed : before.scopes.leave = .ok scopes) :
    before.step tree (.leave outline.label.node) = .ok { before with scopes } := by
  obtain ⟨left, right, present⟩ := stands.present
  simp only [step, leave, Tree.node_eq_ok present]
  rcases opens with tagged | tagged | tagged
  all_goals
    rw [tagged]
    simp only [bind, Except.bind, closed]
    rfl

theorem enter_expression (isExpression : outline.tag = .expression) :
    before.step tree (.enter outline.label.node) = .ok { before with inExpression := true } := by
  obtain ⟨left, right, present⟩ := stands.present
  simp only [step, enter, Tree.node_eq_ok present, isExpression]
  rfl

theorem leave_expression (isExpression : outline.tag = .expression) :
    before.step tree (.leave outline.label.node) = .ok { before with inExpression := false } := by
  obtain ⟨left, right, present⟩ := stands.present
  simp only [step, leave, Tree.node_eq_ok present, isExpression]
  rfl

/-- The walk through an identifier is two steps. -/
theorem events_identifier (isIdentifier : outline.tag = .identifier) :
    outline.events = [.enter outline.label.node, .leave outline.label.node] := by
  have fits := stands.fits
  rw [Outline.Fits, isIdentifier] at fits
  rw [outline.events_eq, List.map_eq_nil_iff.mp fits]
  rfl

/-- An identifier in an expression is looked up, which leaves the scopes alone. -/
theorem exists_enter_used
    (isIdentifier : outline.tag = .identifier)
    (inside : before.inExpression = true) :
    ∃ after, before.step tree (.enter outline.label.node) = .ok after ∧
      Resolution.Keeps [] [] [] before after := by
  obtain ⟨left, right, present⟩ := stands.present
  simp only [step, enter, Tree.node_eq_ok present, isIdentifier, inside, bind, Except.bind,
    if_true, use, stands.located.text_eq_ok present, stands.located.location_eq_ok present]
  split
  · exact ⟨_, rfl, .of_scopes_eq rfl inside.symm rfl⟩
  · exact ⟨_, rfl, .of_scopes_eq rfl rfl rfl⟩

/-- An identifier outside of expressions is declared, unless it is the name of a function. -/
theorem exists_enter_declared
    (isIdentifier : outline.tag = .identifier)
    (outside : before.inExpression = false)
    (fresh : outline.label.node ∉ before.predeclared) :
    ∃ after, before.step tree (.enter outline.label.node) = .ok after ∧
      Resolution.Keeps [outline.label.node] [] [outline.label.node] before after := by
  obtain ⟨left, right, present⟩ := stands.present
  obtain ⟨after, declared, keeps⟩ := exists_declare before stands.located present
  refine ⟨after, ?_, keeps⟩
  simp only [step, enter, Tree.node_eq_ok present, isIdentifier, bind, Except.bind]
  rw [outside, if_neg Bool.false_ne_true, if_neg fresh, declared]

theorem enter_predeclared
    (isIdentifier : outline.tag = .identifier)
    (outside : before.inExpression = false)
    (listed : before.predeclared = [outline.label.node]) :
    before.step tree (.enter outline.label.node) = .ok { before with predeclared := [] } := by
  obtain ⟨left, right, present⟩ := stands.present
  simp only [step, enter, Tree.node_eq_ok present, isIdentifier, bind, Except.bind]
  rw [outside, if_neg Bool.false_ne_true, listed, if_pos (by simp), List.erase_cons_head]
  rfl

/-- The name of a function is declared before its scope opens, and then passed. -/
theorem exists_enter_function
    {name : Outline Mark}
    {others : List (Outline Mark)}
    (isFunction : outline.tag = .function)
    (children : outline.children = name :: others)
    (nameStands : name.Stands tree)
    (isIdentifier : name.tag = .identifier)
    (outside : before.inExpression = false)
    (noneWaiting : before.predeclared = []) :
    ∃ declared, (.enter outline.label.node :: name.events).foldlM (step tree) before =
        .ok (declared.opened outline.label.node (tree.placeOf outline.label)) ∧
      Resolution.Keeps [name.label.node] [] [name.label.node] before declared := by
  obtain ⟨left, right, present⟩ := stands.present
  obtain ⟨nameLeft, nameRight, namePresent⟩ := nameStands.present
  obtain ⟨declared, ran, keeps⟩ := exists_declare before nameStands.located namePresent
  have read := stands.children
  simp only [Tree.children, Tree.node_eq_ok present, isFunction, children, bind,
    Except.bind] at read
  obtain ⟨parts, partsRead, same⟩ := exists_of_bind_eq_ok read
  obtain ⟨named, -⟩ := List.cons.inj (Except.ok.inj same)
  have stillNone := keeps.predeclared.trans noneWaiting
  let opened := declared.opened outline.label.node (tree.placeOf outline.label)
  have entered : before.step tree (.enter outline.label.node) =
      .ok { opened with predeclared := [name.label.node] } := by
    simp only [step, enter, Tree.node_eq_ok present, isFunction, bind, Except.bind, partsRead,
      named, ran, stillNone, enterScope, stands.located.location_eq_ok present]
    rfl
  have passed : Resolution.step tree { opened with predeclared := [name.label.node] }
      (.enter name.label.node) = .ok opened := by
    refine (nameStands.enter_predeclared isIdentifier
      (by exact keeps.inExpression.trans outside) rfl).trans ?_
    simp only [opened, Resolution.opened, stillNone]
  refine ⟨declared, ?_, keeps⟩
  rw [nameStands.events_identifier isIdentifier]
  simp only [List.foldlM_cons, List.foldlM_nil, entered, passed, bind, Except.bind,
    nameStands.leave_eq_self (.inr isIdentifier)]
  rfl

end Outline.Stands

end Steps

/-! ## Walks -/

/-- The names that the outermost node declares. That of a function comes before its
parameters. -/
def Outline.declared (outline : Outline Mark) : List NodeId :=
  match outline.tag with
  | .function => (outline.children.map (·.label.node)).dropLast
  | .constant | .mutable => (outline.children.map (·.label.node)).take 1
  | _ => []

/-- The nodes of the scopes in an outline. -/
def Outline.anchors (outline : Outline Mark) : List NodeId :=
  (outline.parts.filter (·.tag.isScope)).map (·.label.node)

/-- The names that are declared in an outline. -/
def Outline.bindings (outline : Outline Mark) : List NodeId :=
  outline.parts.flatMap declared

namespace Outline

theorem anchors_node (mark : Mark) (tag : Tag) (children : List (Outline Mark)) :
    (node mark tag children).anchors =
      (if tag.isScope then [mark.node] else []) ++ children.flatMap anchors := by
  have below : ((children.map parts).flatten.filter (·.tag.isScope)).map (·.label.node) =
      children.flatMap anchors := by
    rw [List.filter_flatten, List.map_flatten, List.flatMap_def, List.map_map, List.map_map]
    rfl
  rw [anchors, parts_node, List.filter_cons, tag_node]
  split
  · rw [List.map_cons, below]
    rfl
  · rw [below]
    rfl

theorem bindings_node (mark : Mark) (tag : Tag) (children : List (Outline Mark)) :
    (node mark tag children).bindings =
      (node mark tag children).declared ++ children.flatMap bindings := by
  rw [bindings, parts_node, List.flatMap_cons, ← List.flatMap_def, List.flatMap_assoc]
  rfl

end Outline

namespace Resolution

variable {tree : Tree} {inExpression : Bool} {events more : List Event}

/-- The walk through these steps can be made wherever no name of a function waits to be
passed. This is what it keeps. -/
def Balances
    (tree : Tree)
    (inExpression : Bool)
    (introduced anchors bindings : List NodeId)
    (events : List Event) : Prop :=
  ∀ before : Resolution, before.inExpression = inExpression -> before.predeclared = [] ->
    ∃ after, events.foldlM (step tree) before = .ok after ∧
      Keeps introduced anchors bindings before after

namespace Balances

variable
  {introduced anchors bindings moreIntroduced moreAnchors moreBindings : List NodeId}
  {outline : Outline Mark}

theorem nil : Balances tree inExpression [] [] [] [] := fun before _ _ =>
  ⟨before, rfl, .of_scopes_eq rfl rfl rfl⟩

theorem append
    (first : Balances tree inExpression introduced anchors bindings events)
    (second : Balances tree inExpression moreIntroduced moreAnchors moreBindings more) :
    Balances tree inExpression (introduced ++ moreIntroduced) (anchors ++ moreAnchors)
      (bindings ++ moreBindings) (events ++ more) := by
  intro before inside waiting
  obtain ⟨middle, ran, keeps⟩ := first before inside waiting
  obtain ⟨after, ranMore, keepsMore⟩ := second middle (keeps.inExpression.trans inside)
    (keeps.predeclared.trans waiting)
  refine ⟨after, ?_, keeps.append keepsMore⟩
  simp only [List.foldlM_append, ran, bind, Except.bind, ranMore]

/-- The walks through some outlines in a row. -/
theorem flatten
    {outlines : List (Outline Mark)}
    {introduces opens binds : Outline Mark -> List NodeId}
    (balances : ∀ outline ∈ outlines, Balances tree inExpression (introduces outline)
      (opens outline) (binds outline) outline.events) :
    Balances tree inExpression (outlines.flatMap introduces) (outlines.flatMap opens)
      (outlines.flatMap binds) (outlines.map Outline.events).flatten := by
  induction outlines with
  | nil => exact .nil
  | cons outline outlines ih =>
      rw [List.forall_mem_cons] at balances
      exact balances.1.append (ih balances.2)

/-- The walks through some outlines that introduce nothing. -/
theorem flatten_of_nil
    {outlines : List (Outline Mark)}
    (balances : ∀ outline ∈ outlines, Balances tree inExpression [] outline.anchors
      outline.bindings outline.events) :
    Balances tree inExpression [] (outlines.flatMap Outline.anchors)
      (outlines.flatMap Outline.bindings) (outlines.map Outline.events).flatten := by
  have nothing : outlines.flatMap (fun _ => ([] : List NodeId)) = [] :=
    List.flatMap_eq_nil_iff.mpr fun _ _ => rfl
  exact nothing ▸ flatten balances

variable
  (stands : outline.Stands tree)
  (inner : Balances tree inExpression introduced anchors bindings
    (outline.children.map Outline.events).flatten)

include stands inner

theorem quiet (isQuiet : outline.tag.isQuiet = true) :
    Balances tree inExpression introduced anchors bindings outline.events := by
  intro before inside waiting
  obtain ⟨after, ran, keeps⟩ := inner before inside waiting
  refine ⟨after, ?_, keeps⟩
  rw [outline.events_eq]
  simp only [List.cons_append, List.foldlM_cons, List.foldlM_append, List.foldlM_nil,
    stands.enter_eq_self isQuiet, stands.leave_eq_self (.inl isQuiet), bind, Except.bind, ran]
  rfl

theorem scope (opens : outline.tag = .root ∨ outline.tag = .block) :
    Balances tree inExpression [] (outline.label.node :: anchors) bindings outline.events := by
  intro before inside waiting
  obtain ⟨walked, ran, keeps⟩ :=
    inner (before.opened outline.label.node (tree.placeOf outline.label)) inside waiting
  obtain ⟨scopes, closed, result⟩ := keeps.close
  refine ⟨_, ?_, result⟩
  rw [outline.events_eq]
  simp only [List.cons_append, List.foldlM_cons, List.foldlM_append, List.foldlM_nil,
    stands.enter_eq_opened opens, bind, Except.bind, ran,
    stands.leave_eq_closed (opens.imp_right .inl) closed]
  rfl

omit inner in
theorem expression
    (isExpression : outline.tag = .expression)
    (inner : Balances tree true introduced anchors bindings
      (outline.children.map Outline.events).flatten) :
    Balances tree false introduced anchors bindings outline.events := by
  intro before outside waiting
  obtain ⟨walked, ran, keeps⟩ := inner { before with inExpression := true } rfl waiting
  refine ⟨{ walked with inExpression := false }, ?_,
    { keeps with inExpression := outside.symm }⟩
  rw [outline.events_eq]
  simp only [List.cons_append, List.foldlM_cons, List.foldlM_append, List.foldlM_nil,
    stands.enter_expression isExpression, bind, Except.bind, ran,
    stands.leave_expression isExpression]
  rfl

omit inner

theorem used (isIdentifier : outline.tag = .identifier) :
    Balances tree true [] [] [] outline.events := by
  intro before inside _
  obtain ⟨after, ran, keeps⟩ := stands.exists_enter_used isIdentifier inside
  refine ⟨after, ?_, keeps⟩
  rw [stands.events_identifier isIdentifier]
  simp only [List.foldlM_cons, List.foldlM_nil, ran, bind, Except.bind,
    stands.leave_eq_self (.inr isIdentifier)]
  rfl

theorem declared (isIdentifier : outline.tag = .identifier) :
    Balances tree false [outline.label.node] [] [outline.label.node] outline.events := by
  intro before outside waiting
  obtain ⟨after, ran, keeps⟩ :=
    stands.exists_enter_declared isIdentifier outside (by simp [waiting])
  refine ⟨after, ?_, keeps⟩
  rw [stands.events_identifier isIdentifier]
  simp only [List.foldlM_cons, List.foldlM_nil, ran, bind, Except.bind,
    stands.leave_eq_self (.inr isIdentifier)]
  rfl

/-- The walk passes the name of a function that it has declared on the way in. -/
theorem function
    {name : Outline Mark}
    {others : List (Outline Mark)}
    (isFunction : outline.tag = .function)
    (children : outline.children = name :: others)
    (nameStands : name.Stands tree)
    (isIdentifier : name.tag = .identifier)
    (inner : Balances tree false introduced anchors bindings
      (others.map Outline.events).flatten) :
    Balances tree false [name.label.node] (outline.label.node :: anchors)
      (name.label.node :: bindings) outline.events := by
  intro before outside noneWaiting
  obtain ⟨declared, entered, declares⟩ := stands.exists_enter_function isFunction children
    nameStands isIdentifier outside noneWaiting
  obtain ⟨walked, ran, keeps⟩ := inner
    (declared.opened outline.label.node (tree.placeOf outline.label))
    (declares.inExpression.trans outside) (declares.predeclared.trans noneWaiting)
  obtain ⟨scopes, closed, result⟩ := keeps.close
  refine ⟨_, ?_, declares.append result⟩
  rw [outline.events_eq, children, List.map_cons, List.flatten_cons, ← List.cons_append,
    List.foldlM_append, List.foldlM_append, entered]
  simp only [List.foldlM_cons, List.foldlM_nil, bind, Except.bind, ran,
    stands.leave_eq_closed (.inr (.inr isFunction)) closed]
  rfl

end Balances

end Resolution

theorem Tag.isOperand_of_isStatement {tag : Tag} (isStatement : tag.isStatement = true) :
    tag.isOperand = false := by
  cases tag with
  | root | function | block | constant | mutable | assign | evaluate | «return»
  | expression => rfl
  | identifier | literal | unary | binary | call => cases isStatement

/-- Above a phrase there are only phrases, and beside it phrases and names. -/
theorem Tag.Admits.of_isPhrase
    {tag child : Tag}
    {children : List Tag}
    (admits : tag.Admits children)
    (isChild : child ∈ children)
    (isPhrase : child.isOperand = false) :
    tag.isOperand = false ∧ tag ≠ .expression ∧
      ∀ sibling ∈ children, sibling = .identifier ∨ sibling.isOperand = false := by
  cases tag with
  | root | block =>
      exact ⟨rfl, by simp, fun sibling member =>
        .inr (isOperand_of_isStatement (admits sibling member))⟩
  | function =>
      obtain ⟨parameters, rfl⟩ := admits
      refine ⟨rfl, by simp, fun sibling member => ?_⟩
      rcases List.mem_append.mp member with isName | isBody
      · exact .inl (List.eq_of_mem_replicate (List.replicate_succ ▸ isName))
      · exact .inr (List.mem_singleton.mp isBody ▸ rfl)
  | constant | mutable =>
      obtain rfl : children = _ := admits
      exact ⟨rfl, by simp, by simp [isOperand]⟩
  | assign | evaluate =>
      obtain rfl : children = _ := admits
      exact ⟨rfl, by simp, by simp [isOperand]⟩
  | «return» =>
      rcases admits with rfl | rfl
      · cases isChild
      · exact ⟨rfl, by simp, by simp [isOperand]⟩
  | expression | unary | binary | call =>
      rw [admits child isChild] at isPhrase
      cases isPhrase
  | identifier | literal =>
      obtain rfl : children = _ := admits
      cases isChild

namespace Outline

variable {tree : Tree} {outline : Outline Mark}

open Resolution

theorem Fits.exists_of_function
    (fits : outline.Fits)
    (isFunction : outline.tag = .function) :
    ∃ name parameters body, outline.children = name :: (parameters ++ [body]) ∧
      name.tag = .identifier ∧ (∀ parameter ∈ parameters, parameter.tag = .identifier) ∧
      body.tag = .block := by
  rw [Fits, isFunction] at fits
  obtain ⟨count, kinds⟩ := fits
  obtain ⟨name, others, children, isIdentifier, kinds⟩ := List.map_eq_cons_iff.mp kinds
  obtain ⟨parameters, last, rfl, areIdentifiers, isBody⟩ := List.map_eq_append_iff.mp kinds
  obtain ⟨body, rfl, isBlock⟩ := List.map_eq_singleton_iff.mp isBody
  refine ⟨name, parameters, body, children, isIdentifier, fun parameter member => ?_, isBlock⟩
  have isTag : parameter.tag ∈ parameters.map tag := List.mem_map_of_mem member
  rw [areIdentifiers] at isTag
  exact List.eq_of_mem_replicate isTag

/-- Nothing is declared inside of an identifier. -/
theorem Stands.nothing_declared
    (stands : outline.Stands tree)
    (isIdentifier : outline.tag = .identifier) :
    outline.anchors = [] ∧ outline.bindings = [] := by
  have fits := stands.fits
  cases outline with
  | node mark tag children =>
      obtain rfl : tag = .identifier := isIdentifier
      obtain rfl : children = [] := List.map_eq_nil_iff.mp fits
      exact ⟨by simp [anchors_node, Tag.isScope], by simp [bindings_node, declared]⟩

/-- An operand opens no scope, and nothing happens at it unless it is a name. -/
theorem quiet_of_isOperand {kind : Tag} (isOperand : kind.isOperand = true) :
    kind.isScope = false ∧ (kind ≠ .identifier -> kind.isQuiet = true) := by
  cases kind <;> simp_all [Tag.isOperand, Tag.isScope, Tag.isQuiet]

theorem declared_of_isOperand
    {mark : Mark}
    {kind : Tag}
    {children : List (Outline Mark)}
    (isOperand : kind.isOperand = true) :
    (node mark kind children).declared = [] := by
  cases kind <;> simp_all [Tag.isOperand, declared]

/-- Only operands stand below an operand. -/
theorem Fits.operands
    {mark : Mark}
    {kind : Tag}
    {children : List (Outline Mark)}
    (fits : (node mark kind children).Fits)
    (isOperand : kind.isOperand = true) :
    ∀ child ∈ children, child.tag.isOperand = true := by
  cases kind <;> simp_all [Tag.isOperand, Fits, Tag.Admits]

/-- The walk through the operands of an expression opens no scope and declares no name. -/
theorem balances_operand
    (stands : ∀ part ∈ outline.parts, part.Stands tree)
    (isOperand : outline.tag.isOperand = true) :
    Balances tree true [] outline.anchors outline.bindings outline.events := by
  induction outline with
  | node mark tag children ih =>
      rw [forall_parts_node] at stands
      obtain ⟨outer, below⟩ := stands
      change tag.isOperand = true at isOperand
      by_cases isIdentifier : tag = .identifier
      · obtain ⟨noAnchors, noBindings⟩ := outer.nothing_declared isIdentifier
        rw [noAnchors, noBindings]
        exact .used outer isIdentifier
      · obtain ⟨noScope, quiet⟩ := quiet_of_isOperand isOperand
        have operands := outer.fits.operands isOperand
        have inner : Balances tree true [] (children.flatMap anchors)
            (children.flatMap bindings) (children.map events).flatten :=
          .flatten_of_nil fun child member =>
            ih child member (below child member) (operands child member)
        rw [anchors_node, bindings_node, noScope, declared_of_isOperand isOperand]
        exact inner.quiet outer (quiet isIdentifier)

/-- What is shown below for everything but operands. -/
def IsBalanced (tree : Tree) (outline : Outline Mark) : Prop :=
  Balances tree false (outline.declared.take 1) outline.anchors outline.bindings outline.events

section Declarations

variable
  {mark : Mark}
  {tag : Tag}
  {children : List (Outline Mark)}
  (outer : (node mark tag children).Stands tree)
  (below : ∀ child ∈ children, child.Stands tree)
  (balanced : ∀ child ∈ children, child.tag.isOperand = false -> child.IsBalanced tree)

include outer below balanced

theorem isBalanced_binding (isBinding : tag = .constant ∨ tag = .mutable) :
    (node mark tag children).IsBalanced tree := by
  have kinds : children.map Outline.tag = [.identifier, .expression] := by
    rcases isBinding with rfl | rfl
    · exact outer.fits
    · exact outer.fits
  obtain ⟨name, others, rfl, isIdentifier, kinds⟩ := List.map_eq_cons_iff.mp kinds
  obtain ⟨value, rfl, isExpression⟩ := List.map_eq_singleton_iff.mp kinds
  have nameStands := below name (by simp)
  obtain ⟨noAnchors, noBindings⟩ := nameStands.nothing_declared isIdentifier
  have named := Balances.declared nameStands isIdentifier
  have valued := balanced value (by simp) (by simp [isExpression, Tag.isOperand])
  have inner := named.append valued
  have noScope : tag.isScope = false := by rcases isBinding with rfl | rfl <;> rfl
  have isQuiet : tag.isQuiet = true := by rcases isBinding with rfl | rfl <;> rfl
  have declares : (node mark tag [name, value]).declared = [name.label.node] := by
    rcases isBinding with rfl | rfl <;> rfl
  have nothing : value.declared = [] := by rw [declared, isExpression]
  rw [IsBalanced, anchors_node, bindings_node, noScope, declares]
  simp only [nothing, List.take_nil, List.append_nil] at inner
  simp only [List.flatMap_cons, List.flatMap_nil, noAnchors, noBindings]
  simpa using Balances.quiet outer (by simpa using inner) isQuiet

theorem isBalanced_function (isFunction : tag = .function) :
    (node mark tag children).IsBalanced tree := by
  obtain ⟨name, parameters, body, rfl, isIdentifier, areIdentifiers, isBlock⟩ :=
    outer.fits.exists_of_function isFunction
  have nameStands := below name (by simp)
  have standing : ∀ parameter ∈ parameters, parameter.Stands tree := fun parameter member =>
    below parameter (by simp [member])
  have parametersWalk : Balances tree false (parameters.map (·.label.node)) []
      (parameters.map (·.label.node)) (parameters.map events).flatten := by
    have nothing : parameters.flatMap (fun _ => ([] : List NodeId)) = [] :=
      List.flatMap_eq_nil_iff.mpr fun _ _ => rfl
    have walk := Balances.flatten fun parameter member =>
      Balances.declared (standing parameter member) (areIdentifiers parameter member)
    rwa [nothing, ← List.map_eq_flatMap] at walk
  have bodyWalk := balanced body (by simp) (by simp [isBlock, Tag.isOperand])
  have inner := parametersWalk.append bodyWalk
  have walk := Balances.function outer isFunction rfl nameStands isIdentifier
    (by simpa using inner)
  -- Identifiers have nothing in them, so the lists are those of the declaration and the body.
  obtain ⟨noAnchors, noBindings⟩ := nameStands.nothing_declared isIdentifier
  have noParameterAnchors : parameters.flatMap anchors = [] := List.flatMap_eq_nil_iff.mpr
    fun parameter member =>
      ((standing parameter member).nothing_declared (areIdentifiers parameter member)).1
  have noParameterBindings : parameters.flatMap bindings = [] := List.flatMap_eq_nil_iff.mpr
    fun parameter member =>
      ((standing parameter member).nothing_declared (areIdentifiers parameter member)).2
  have declares : (node mark tag (name :: (parameters ++ [body]))).declared =
      name.label.node :: parameters.map (·.label.node) := by
    rw [declared, tag_node, isFunction, children_node, ← List.cons_append, List.map_append,
      List.map_singleton, List.dropLast_concat, List.map_cons]
  subst isFunction
  rw [IsBalanced, anchors_node, bindings_node, declares]
  simpa [noAnchors, noBindings, noParameterAnchors, noParameterBindings, Tag.isScope] using walk

end Declarations

/-- The walk through a statement, a whole expression or a program is balanced. A declaration
introduces its first name around itself. -/
theorem isBalanced
    (stands : ∀ part ∈ outline.parts, part.Stands tree)
    (isPhrase : outline.tag.isOperand = false) :
    outline.IsBalanced tree := by
  induction outline with
  | node mark tag children ih =>
      rw [forall_parts_node] at stands
      obtain ⟨outer, below⟩ := stands
      have balanced : ∀ child ∈ children, child.tag.isOperand = false ->
          child.IsBalanced tree := fun child member =>
        ih child member (below child member)
      have standing : ∀ child ∈ children, child.Stands tree := fun child member =>
        below child member child child.self_mem_parts
      have fits := outer.fits
      rw [Fits, tag_node, children_node] at fits
      cases tag with
      | root | block =>
          have inner : Balances tree false (children.flatMap fun child => child.declared.take 1)
              (children.flatMap anchors) (children.flatMap bindings)
              (children.map events).flatten :=
            .flatten fun child member => balanced child member
              (Tag.isOperand_of_isStatement (fits child.tag (List.mem_map_of_mem member)))
          rw [IsBalanced, anchors_node, bindings_node]
          exact inner.scope outer (by simp)
      | expression =>
          have inner : Balances tree true [] (children.flatMap anchors)
              (children.flatMap bindings) (children.map events).flatten :=
            .flatten_of_nil fun child member => balances_operand (below child member)
              (fits child.tag (List.mem_map_of_mem member))
          rw [IsBalanced, anchors_node, bindings_node]
          exact .expression outer rfl inner
      | evaluate | assign | «return» =>
          have areExpressions : ∀ tag ∈ children.map Outline.tag, tag = .expression := by
            simp only [Tag.Admits] at fits
            grind
          have inner : Balances tree false [] (children.flatMap anchors)
              (children.flatMap bindings) (children.map events).flatten := by
            refine .flatten_of_nil fun child member => ?_
            have isExpression := areExpressions child.tag (List.mem_map_of_mem member)
            simpa [IsBalanced, declared, isExpression] using
              balanced child member (by simp [isExpression, Tag.isOperand])
          rw [IsBalanced, anchors_node, bindings_node]
          exact inner.quiet outer rfl
      | constant | mutable => exact isBalanced_binding outer standing balanced (by simp)
      | function => exact isBalanced_function outer standing balanced rfl
      | identifier | literal | unary | binary | call => cases isPhrase

/-- The walks through phrases and names that are declared can be made in a row. -/
theorem exists_balances
    {outlines : List (Outline Mark)}
    (stands : ∀ outline ∈ outlines, ∀ part ∈ outline.parts, part.Stands tree)
    (kinds : ∀ outline ∈ outlines,
      outline.tag = .identifier ∨ outline.tag.isOperand = false) :
    ∃ introduced anchors bindings,
      Balances tree false introduced anchors bindings (outlines.map events).flatten := by
  induction outlines with
  | nil => exact ⟨[], [], [], .nil⟩
  | cons outline outlines ih =>
      rw [List.forall_mem_cons] at stands kinds
      obtain ⟨_, _, _, others⟩ := ih stands.2 kinds.2
      rcases kinds.1 with isIdentifier | isPhrase
      · have outer := stands.1 outline outline.self_mem_parts
        exact ⟨_, _, _, (Balances.declared outer isIdentifier).append others⟩
      · exact ⟨_, _, _, Balances.append (isBalanced stands.1 isPhrase) others⟩

/-- The walk gets from a node to a phrase below it outside of expressions, with no name of a
function left to be passed. -/
theorem Stands.exists_enter_child
    {child : Outline Mark}
    {earlier later : List (Outline Mark)}
    {before : Resolution}
    (outer : outline.Stands tree)
    (below : ∀ child ∈ outline.children, ∀ part ∈ child.parts, part.Stands tree)
    (split : outline.children = earlier ++ child :: later)
    (isPhrase : child.tag.isOperand = false)
    (outside : before.inExpression = false)
    (noneWaiting : before.predeclared = []) :
    ∃ state : Resolution,
      (.enter outline.label.node :: (earlier.map events).flatten).foldlM (step tree) before =
        .ok state ∧
      state.inExpression = false ∧ state.predeclared = [] := by
  have isChild : child.tag ∈ outline.children.map tag :=
    List.mem_map_of_mem (split ▸ List.mem_append_cons_self)
  obtain ⟨upperPhrase, noExpression, kinds⟩ := Tag.Admits.of_isPhrase outer.fits isChild isPhrase
  have isEarlier : ∀ sibling ∈ earlier, sibling ∈ outline.children := fun sibling member =>
    split ▸ List.mem_append_left _ member
  have earlierStands : ∀ sibling ∈ earlier, ∀ part ∈ sibling.parts, part.Stands tree :=
    fun sibling member => below sibling (isEarlier sibling member)
  have earlierKinds : ∀ sibling ∈ earlier,
      sibling.tag = .identifier ∨ sibling.tag.isOperand = false := fun sibling member =>
    kinds sibling.tag (List.mem_map_of_mem (isEarlier sibling member))
  -- It is enough to know what the step into the node does.
  have from_entered : ∀ entered : Resolution,
      before.step tree (.enter outline.label.node) = .ok entered ->
      entered.inExpression = false -> entered.predeclared = [] ->
        ∃ state : Resolution,
          (.enter outline.label.node :: (earlier.map events).flatten).foldlM (step tree) before =
            .ok state ∧
          state.inExpression = false ∧ state.predeclared = [] := by
    intro entered ran outside noneWaiting
    obtain ⟨_, _, _, walk⟩ := exists_balances earlierStands earlierKinds
    obtain ⟨state, more, keeps⟩ := walk entered outside noneWaiting
    refine ⟨state, ?_, keeps.inExpression.trans outside, keeps.predeclared.trans noneWaiting⟩
    rw [List.foldlM_cons, ran]
    exact more
  cases tagged : outline.tag with
  | root | block =>
      exact from_entered _ (outer.enter_eq_opened (by simp [tagged])) outside noneWaiting
  | constant | mutable | assign | evaluate | «return» =>
      exact from_entered _ (outer.enter_eq_self (by simp [tagged, Tag.isQuiet])) outside noneWaiting
  | function =>
      obtain ⟨name, parameters, body, children, isIdentifier, -, -⟩ :=
        outer.fits.exists_of_function tagged
      cases earlier with
      | nil =>
          obtain ⟨rfl, -⟩ := List.cons.inj (children.symm.trans split)
          simp [isIdentifier, Tag.isOperand] at isPhrase
      | cons first earlier =>
          obtain ⟨rfl, -⟩ := List.cons.inj (children.symm.trans split)
          rw [List.forall_mem_cons] at earlierStands earlierKinds
          have nameStands := earlierStands.1 name name.self_mem_parts
          obtain ⟨declared, ran, declares⟩ := outer.exists_enter_function tagged split nameStands
            isIdentifier outside noneWaiting
          obtain ⟨_, _, _, walk⟩ := exists_balances earlierStands.2 earlierKinds.2
          obtain ⟨state, more, keeps⟩ := walk
            (declared.opened outline.label.node (tree.placeOf outline.label))
            (declares.inExpression.trans outside) (declares.predeclared.trans noneWaiting)
          refine ⟨state, ?_, keeps.inExpression.trans (declares.inExpression.trans outside),
            keeps.predeclared.trans (declares.predeclared.trans noneWaiting)⟩
          rw [List.map_cons, List.flatten_cons, ← List.cons_append, List.foldlM_append, ran]
          exact more
  | expression => exact absurd tagged noExpression
  | identifier | literal | unary | binary | call =>
      rw [tagged] at upperPhrase
      cases upperPhrase

/-- The walk gets to every phrase outside of expressions, with no name of a function left to
be passed. -/
theorem Reaches.exists_resolution
    {part : Outline Mark}
    {passed : List Event}
    (stands : ∀ part ∈ outline.parts, part.Stands tree)
    (before : Resolution)
    (outside : before.inExpression = false)
    (noneWaiting : before.predeclared = [])
    (reaches : outline.Reaches passed part)
    (isPhrase : part.tag.isOperand = false) :
    ∃ state : Resolution, passed.foldlM (step tree) before = .ok state ∧
      state.inExpression = false ∧ state.predeclared = [] := by
  induction reaches with
  | start => exact ⟨before, rfl, outside, noneWaiting⟩
  | @child passed part child earlier later reaches split ih =>
      have isPart := reaches.mem_parts
      have partStands := stands part isPart
      have isChild : child.tag ∈ part.children.map tag :=
        List.mem_map_of_mem (split ▸ List.mem_append_cons_self)
      obtain ⟨upperPhrase, -, -⟩ := Tag.Admits.of_isPhrase partStands.fits isChild isPhrase
      obtain ⟨state, ran, stateOutside, stateNone⟩ := ih upperPhrase
      obtain ⟨after, more, result⟩ := partStands.exists_enter_child
        (fun child member lower isLower => stands lower
          (parts_subset (mem_parts_of_mem_children isPart member) isLower))
        split isPhrase stateOutside stateNone
      refine ⟨after, ?_, result⟩
      rw [List.foldlM_append, ran]
      exact more

end Outline

end Frontend
