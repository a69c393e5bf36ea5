import Frontend.Proofs.Grammar.Legible
import Frontend.Proofs.Scope.Lexical
import Frontend.Scope.Resolution
import Mathlib.Data.List.Forall2

/-!
# Resolution agrees with lexical scoping

The walk that resolves names keeps records of declarations, a window of the names
in force and the heights at which the open scopes cut it. This state agrees with an
environment if the window holds the names of the environment, scope by scope.
Walking through a phrase finds what the phrase finds in that environment, and leads
to a state that agrees with the environment after it.
-/

namespace Frontend

/-! ## The names in force -/

/-- The record is that of the name that the mark declares, at this depth. -/
structure Declaration.Names
    (tree : Tree)
    (declaration : Declaration)
    (mark : Mark)
    (depth : Nat) : Prop where
  isBinding : declaration.isBinding = true
  node : declaration.node = mark.node
  depth : declaration.depth = depth
  text : tree.text mark.node = .ok (tree.lexeme mark)

/-- The names in force and the open scopes are those of the environment. -/
inductive InForce (tree : Tree) (declarations : Array Declaration) :
    Environment -> List DeclId -> List Frame -> Prop
  | none : InForce tree declarations [] [] []
  | enter
      {environment : Environment}
      {visible : List DeclId}
      {frames : List Frame}
      {anchor : DeclId}
      (inside : InForce tree declarations environment visible frames)
      (recorded : anchor < declarations.size) :
      InForce tree declarations ([] :: environment) visible
        (⟨anchor, visible.length⟩ :: frames)
  | declare
      {scope : List (String × Mark)}
      {outer : Environment}
      {visible : List DeclId}
      {frames : List Frame}
      {mark : Mark}
      {id : DeclId}
      {declaration : Declaration}
      (inside : InForce tree declarations (scope :: outer) visible frames)
      (present : declarations[id]? = some declaration)
      (names : declaration.Names tree mark (outer.length + 1)) :
      InForce tree declarations (((tree.lexeme mark, mark) :: scope) :: outer)
        (id :: visible) frames

namespace InForce

variable
  {tree : Tree}
  {declarations longer : Array Declaration}
  {environment outer : Environment}
  {scope : List (String × Mark)}
  {visible : List DeclId}
  {frames : List Frame}

theorem extend
    (inForce : InForce tree declarations environment visible frames)
    (extended : Extends declarations longer) :
    InForce tree longer environment visible frames := by
  induction inForce with
  | none => exact .none
  | enter _ recorded ih =>
      exact .enter ih (Nat.lt_of_lt_of_le recorded extended.size_le)
  | declare _ present names ih =>
      exact .declare ih (extended.getElem?_eq_some present) names

/-- Without an environment no name is in force and no scope is open. -/
theorem eq_nil (inForce : InForce tree declarations [] visible frames) :
    visible = [] ∧ frames = [] := by
  cases inForce with
  | none => exact ⟨rfl, rfl⟩

/-- Closing the innermost scope leaves the names of the outer ones. -/
theorem leave (inForce : InForce tree declarations (scope :: outer) visible frames) :
    ∃ frame rest,
      frames = frame :: rest ∧ frame.height ≤ visible.length ∧
        InForce tree declarations outer
          (visible.drop (visible.length - frame.height)) rest := by
  generalize same : scope :: outer = environment at inForce
  induction inForce generalizing scope with
  | none => cases same
  | enter inside _ _ =>
      cases same
      exact ⟨_, _, rfl, Nat.le_refl _, by simpa using inside⟩
  | @declare _ _ visible _ _ id _ _ _ _ ih =>
      cases same
      obtain ⟨frame, rest, rfl, below, outside⟩ := ih rfl
      refine ⟨frame, rest, rfl, Nat.le_succ_of_le below, ?_⟩
      rw [List.length_cons, Nat.succ_sub below, List.drop_succ_cons]
      exact outside

/-- The record of a name declares just the text of its mark. -/
theorem declares_eq
    {declaration : Declaration}
    {mark : Mark}
    {depth : Nat}
    (names : declaration.Names tree mark depth)
    (text : String) :
    Resolution.declares tree text declaration = (tree.lexeme mark == text) := by
  simp only [Resolution.declares, names.isBinding, names.node, names.text, Bool.true_and]

/-- The latest record in force that declares a text is that of the declaration which
the environment finds. -/
theorem rel_find?
    (inForce : InForce tree declarations environment visible frames)
    (text : String) :
    Option.Rel
      (fun id mark => ∃ declaration,
        declarations[id]? = some declaration ∧ declaration.isBinding = true ∧
          declaration.node = mark.node)
      (visible.find? fun id => declarations[id]?.any (Resolution.declares tree text))
      (environment.find? text) := by
  induction inForce with
  | none => exact .none
  | enter _ _ ih =>
      rw [Environment.find?_nil_cons]
      exact ih
  | @declare scope outer _ _ mark id declaration _ present names ih =>
      rw [List.find?_cons, present, Option.any_some, declares_eq names,
        Environment.find?_cons_cons]
      by_cases same : text = tree.lexeme mark
      · rw [if_pos same, same, beq_self_eq_true]
        exact .some ⟨declaration, present, names.isBinding, names.node⟩
      · rw [if_neg same, beq_eq_false_iff_ne.mpr (Ne.symm same)]
        exact ih

/-- No name in force is deeper than the scopes that are open. -/
theorem depth_le
    (inForce : InForce tree declarations environment visible frames)
    {id : DeclId}
    (member : id ∈ visible) :
    ∃ declaration, declarations[id]? = some declaration ∧
      declaration.depth ≤ environment.length := by
  induction inForce with
  | none => cases member
  | enter _ _ ih =>
      obtain ⟨declaration, present, below⟩ := ih member
      exact ⟨declaration, present, Nat.le_succ_of_le below⟩
  | declare _ present names ih =>
      rcases List.mem_cons.mp member with rfl | member
      · exact ⟨_, present, Nat.le_of_eq names.depth⟩
      · exact ih member

/-- A text is found among the names of the innermost depth just if the innermost
scope declares it. -/
theorem isSome_find?_innermost
    (inForce : InForce tree declarations (scope :: outer) visible frames)
    (text : String) :
    ((visible.takeWhile fun id =>
        declarations[id]?.any fun declaration => declaration.depth = outer.length + 1).find?
      fun id => declarations[id]?.any (Resolution.declares tree text)).isSome =
        (scope.lookup text).isSome := by
  generalize same : scope :: outer = environment at inForce
  induction inForce generalizing scope with
  | none => cases same
  | @enter _ visible _ _ inside _ _ =>
      cases same
      cases visible with
      | nil => rfl
      | cons id rest =>
          obtain ⟨declaration, present, below⟩ := inside.depth_le (List.mem_cons_self ..)
          have shallow : declaration.depth ≠ outer.length + 1 :=
            Nat.ne_of_lt (Nat.lt_succ_of_le below)
          simp [present, shallow]
  | @declare inner _ _ _ mark id declaration _ present names ih =>
      cases same
      have deep : (declarations[id]?.any fun declaration =>
          declaration.depth = outer.length + 1) = true := by
        simp [present, names.depth]
      rw [List.takeWhile_cons, deep, if_pos rfl, List.find?_cons, present, Option.any_some,
        declares_eq names, List.lookup_cons]
      by_cases same : text = tree.lexeme mark
      · simp [same]
      · rw [beq_eq_false_iff_ne.mpr same, beq_eq_false_iff_ne.mpr (Ne.symm same)]
        exact ih rfl

/-- The record of an open scope is there. -/
theorem anchor_lt
    (inForce : InForce tree declarations environment visible frames)
    {anchor : DeclId}
    (found : frames.head?.map Frame.anchor = some anchor) :
    anchor < declarations.size := by
  induction inForce with
  | none => cases found
  | enter _ recorded _ =>
      cases found
      exact recorded
  | declare _ _ _ ih => exact ih found

end InForce

/-! ## States of the walk -/

/-- What is reported of an identifier. -/
def Finding.diagnostic? (tree : Tree) : Finding -> Option Diagnostic
  | declares mark true =>
      some { cause := .redeclared (tree.lexeme mark), location := tree.placeOf mark }
  | lacks mark =>
      some { cause := .undeclared (tree.lexeme mark), location := tree.placeOf mark }
  | declares _ false | uses _ _ => none

/-- A report is made at the place of the identifier, and quotes it. -/
theorem Finding.of_diagnostic?
    {tree : Tree}
    {finding : Finding}
    {diagnostic : Diagnostic}
    (found : finding.diagnostic? tree = some diagnostic) :
    diagnostic.location = tree.placeOf finding.mark ∧
      (diagnostic.cause = .undeclared (tree.lexeme finding.mark) ∨
        diagnostic.cause = .redeclared (tree.lexeme finding.mark)) := by
  cases finding with
  | declares mark again =>
      cases again with
      | false => cases found
      | true =>
          cases found
          exact ⟨rfl, .inr rfl⟩
  | uses mark declaration => cases found
  | lacks mark =>
      cases found
      exact ⟨rfl, .inl rfl⟩

/-- The node of a record, if it is that of a name. -/
def Declaration.binding? (declaration : Declaration) : Option NodeId :=
  if declaration.isBinding then some declaration.node else none

/-- The usage refers to the record of a declaration. -/
def Usage.Refers
    (declarations : Array Declaration)
    (usage : Usage)
    (pair : NodeId × NodeId) : Prop :=
  usage.user = pair.1 ∧ ∃ declaration,
    declarations[usage.declaration]? = some declaration ∧
      declaration.isBinding = true ∧ declaration.node = pair.2

/-- Records of scopes come before what is inside, and names have texts. -/
structure Recorded (tree : Tree) (declarations : Array Declaration) : Prop where
  parent_lt : ∀ (id : DeclId) (declaration : Declaration) (parent : DeclId),
    declarations[id]? = some declaration -> declaration.parent = some parent -> parent < id
  text : ∀ declaration ∈ declarations,
    declaration.isBinding = true -> ∃ text, tree.text declaration.node = .ok text

theorem Recorded.push
    {tree : Tree}
    {declarations : Array Declaration}
    (recorded : Recorded tree declarations)
    {declaration : Declaration}
    (parent_lt : ∀ parent, declaration.parent = some parent -> parent < declarations.size)
    (text : declaration.isBinding = true -> ∃ text, tree.text declaration.node = .ok text) :
    Recorded tree (declarations.push declaration) where
  parent_lt := by
    intro id other parent present isParent
    rw [Array.getElem?_push] at present
    split at present
    next last =>
      cases present
      rw [last]
      exact parent_lt parent isParent
    next => exact recorded.parent_lt id other parent present isParent
  text := by
    intro other member
    rcases Array.mem_push.mp member with member | rfl
    · exact recorded.text other member
    · exact text

/-- The state of a walk agrees with an environment and with what has been found. -/
structure Resolution.Agrees
    (tree : Tree)
    (environment : Environment)
    (findings : List Finding)
    (inExpression : Bool)
    (predeclared : List NodeId)
    (resolution : Resolution) : Prop where
  inForce : InForce tree resolution.scopes.declarations environment
    resolution.scopes.visible resolution.scopes.frames
  depth : resolution.scopes.depth = environment.length
  entered : resolution.scopes.entered = resolution.scopes.exited + environment.length
  recorded : Recorded tree resolution.scopes.declarations
  declared : resolution.scopes.declarations.toList.filterMap Declaration.binding? =
    findings.filterMap Finding.declared?
  usages : List.Forall₂ (Usage.Refers resolution.scopes.declarations)
    resolution.usages.toList (findings.filterMap Finding.usage?)
  diagnostics : resolution.diagnostics.toList =
    findings.filterMap (Finding.diagnostic? tree)
  inExpression : resolution.inExpression = inExpression
  predeclared : resolution.predeclared = predeclared

theorem Usage.Refers.extend
    {declarations longer : Array Declaration}
    {usage : Usage}
    {pair : NodeId × NodeId}
    (refers : usage.Refers declarations pair)
    (extended : Extends declarations longer) :
    usage.Refers longer pair := by
  obtain ⟨user, declaration, present, isBinding, node⟩ := refers
  exact ⟨user, declaration, extended.getElem?_eq_some present, isBinding, node⟩

namespace Resolution.Agrees

variable
  {tree : Tree}
  {environment outer : Environment}
  {scope : List (String × Mark)}
  {findings : List Finding}
  {inExpression : Bool}
  {predeclared : List NodeId}
  {resolution : Resolution}

/-- Opening a scope. -/
theorem enterScope
    (agrees : resolution.Agrees tree environment findings inExpression predeclared)
    (node line column : Nat) :
    Resolution.Agrees tree ([] :: environment) findings inExpression predeclared
      { resolution with scopes := resolution.scopes.enter node line column } where
  inForce := by
    refine .enter (agrees.inForce.extend (.push _ _)) ?_
    simp [Scopes.enter, Scopes.nextId]
  depth := congrArg (· + 1) agrees.depth
  entered := congrArg (· + 1) agrees.entered
  recorded := agrees.recorded.push
    (fun _ isParent => agrees.inForce.anchor_lt isParent)
    (fun isBinding => absurd isBinding (by simp))
  declared := by
    simp [Scopes.enter, Declaration.binding?, agrees.declared]
  usages := agrees.usages.imp fun _ _ refers => refers.extend (.push _ _)
  diagnostics := agrees.diagnostics
  inExpression := agrees.inExpression
  predeclared := agrees.predeclared

/-- Closing a scope. -/
theorem leaveScope
    (agrees : resolution.Agrees tree (scope :: outer) findings inExpression predeclared) :
    ∃ scopes,
      resolution.scopes.leave = .ok scopes ∧
        Resolution.Agrees tree outer findings inExpression predeclared
          { resolution with scopes } := by
  obtain ⟨frame, rest, found, -, outside⟩ := agrees.inForce.leave
  refine ⟨_, Scopes.leave_eq_ok.mpr ⟨frame, rest, _, found, agrees.depth, rfl⟩, ?_⟩
  refine { agrees with inForce := outside, depth := rfl, entered := ?_ }
  have entered := agrees.entered
  rw [List.length_cons] at entered
  dsimp only
  omega

/-- The innermost scope has declared a text just if a record says so. -/
theorem isSome_lookupInnermost?
    (agrees : resolution.Agrees tree (scope :: outer) findings inExpression predeclared)
    (text : String) :
    (resolution.scopes.lookupInnermost? (declares tree text)).isSome =
      (scope.lookup text).isSome := by
  rw [← agrees.inForce.isSome_find?_innermost, Scopes.lookupInnermost?, agrees.depth]
  rfl

/-- Adding the record of a name. -/
theorem addName
    (agrees : resolution.Agrees tree (scope :: outer) findings inExpression predeclared)
    {mark : Mark}
    (text : tree.text mark.node = .ok (tree.lexeme mark))
    (line column : Nat)
    {after : Resolution}
    (scopes : after.scopes = resolution.scopes.declare mark.node line column)
    (usages : after.usages = resolution.usages)
    (diagnostics : after.diagnostics.toList = resolution.diagnostics.toList ++
      [Environment.declaring (scope :: outer) tree.lexeme mark].filterMap
        (Finding.diagnostic? tree))
    (sameExpression : after.inExpression = resolution.inExpression)
    (samePredeclared : after.predeclared = resolution.predeclared) :
    after.Agrees tree (Environment.declare (scope :: outer) tree.lexeme mark)
      (findings ++ [Environment.declaring (scope :: outer) tree.lexeme mark])
      inExpression predeclared where
  inForce := by
    rw [scopes]
    exact .declare (agrees.inForce.extend (.push _ _))
      (Array.getElem?_push_size ..) ⟨rfl, rfl, agrees.depth, text⟩
  depth := by rw [scopes]; exact agrees.depth
  entered := by rw [scopes]; exact agrees.entered
  recorded := by
    rw [scopes]
    exact agrees.recorded.push (fun _ isParent => agrees.inForce.anchor_lt isParent)
      fun _ => ⟨_, text⟩
  declared := by
    simp [scopes, Scopes.declare, Declaration.binding?, agrees.declared, Finding.declared?,
      Environment.declaring]
  usages := by
    have none : [Environment.declaring (scope :: outer) tree.lexeme mark].filterMap
        Finding.usage? = [] := rfl
    rw [scopes, usages, List.filterMap_append, none, List.append_nil]
    exact agrees.usages.imp fun _ _ refers => refers.extend (.push _ _)
  diagnostics := by
    rw [diagnostics, agrees.diagnostics, List.filterMap_append]
  inExpression := sameExpression.trans agrees.inExpression
  predeclared := samePredeclared.trans agrees.predeclared

/-- Declaring a name. -/
theorem declare
    (agrees : resolution.Agrees tree (scope :: outer) findings inExpression predeclared)
    {mark : Mark}
    (present : mark.IsIdentifier tree.nodes)
    (located : tree.Locates mark) :
    ∃ after,
      resolution.declare tree mark.node = .ok after ∧
        after.Agrees tree (Environment.declare (scope :: outer) tree.lexeme mark)
          (findings ++ [Environment.declaring (scope :: outer) tree.lexeme mark])
          inExpression predeclared := by
  have text := located.text_eq_ok present
  have clash := agrees.isSome_lookupInnermost? (tree.lexeme mark)
  simp only [Resolution.declare, text, located.location_eq_ok present, clash, bind,
    Except.bind]
  refine ⟨_, rfl, ?_⟩
  cases again : (scope.lookup (tree.lexeme mark)).isSome with
  | false =>
      refine agrees.addName text _ _ rfl rfl ?_ rfl rfl
      simp [Environment.declaring, again, Finding.diagnostic?]
  | true =>
      refine agrees.addName text _ _ rfl rfl ?_ rfl rfl
      simp [Environment.declaring, again, Finding.diagnostic?, Resolution.report]

/-- Adding a usage. -/
theorem addUsage
    (agrees : resolution.Agrees tree environment findings inExpression predeclared)
    {mark declaration : Mark}
    {usage : Usage}
    (refers : usage.Refers resolution.scopes.declarations (mark.node, declaration.node)) :
    Resolution.Agrees tree environment (findings ++ [.uses mark declaration])
      inExpression predeclared
      { resolution with usages := resolution.usages.push usage } where
  inForce := agrees.inForce
  depth := agrees.depth
  entered := agrees.entered
  recorded := agrees.recorded
  declared := by
    simp [agrees.declared, Finding.declared?, List.filterMap_cons]
  usages := by
    rw [Array.toList_push, List.filterMap_append]
    exact List.rel_append agrees.usages (.cons refers .nil)
  diagnostics := by
    simp [agrees.diagnostics, Finding.diagnostic?, List.filterMap_cons]
  inExpression := agrees.inExpression
  predeclared := agrees.predeclared

/-- Reporting that a name is not declared. -/
theorem addLack
    (agrees : resolution.Agrees tree environment findings inExpression predeclared)
    (mark : Mark) :
    Resolution.Agrees tree environment (findings ++ [.lacks mark])
      inExpression predeclared
      (resolution.report (.undeclared (tree.lexeme mark)) (tree.placeOf mark)) where
  inForce := agrees.inForce
  depth := agrees.depth
  entered := agrees.entered
  recorded := agrees.recorded
  declared := by
    simp [agrees.declared, Finding.declared?, List.filterMap_cons, Resolution.report]
  usages := by
    simpa [Finding.usage?, List.filterMap_cons, Resolution.report] using agrees.usages
  diagnostics := by
    simp [agrees.diagnostics, Finding.diagnostic?, Resolution.report]
  inExpression := agrees.inExpression
  predeclared := agrees.predeclared

/-- Looking up a name. -/
theorem use
    (agrees : resolution.Agrees tree environment findings inExpression predeclared)
    {mark : Mark}
    (present : mark.IsIdentifier tree.nodes)
    (located : tree.Locates mark) :
    ∃ after,
      resolution.use tree mark.node = .ok after ∧
        after.Agrees tree environment
          (findings ++ [environment.referring tree.lexeme mark])
          inExpression predeclared := by
  have found : Option.Rel _ (resolution.scopes.lookup? (declares tree (tree.lexeme mark)))
      (environment.find? (tree.lexeme mark)) := agrees.inForce.rel_find? _
  simp only [Resolution.use, located.text_eq_ok present, bind, Except.bind]
  unfold Environment.referring
  generalize resolution.scopes.lookup? (declares tree (tree.lexeme mark)) = looked,
    environment.find? (tree.lexeme mark) = declared at found
  cases found with
  | none =>
      simp only [located.location_eq_ok present]
      exact ⟨_, rfl, agrees.addLack mark⟩
  | some refers => exact ⟨_, rfl, agrees.addUsage ⟨rfl, refers⟩⟩

end Resolution.Agrees

/-! ## Walks through phrases -/

/-- A walk through these events goes well from every state that agrees with the
environment before it. It adds what is found, and agrees with the environment after
it. -/
def Walks
    (tree : Tree)
    (inExpression : Bool)
    (events : List Event)
    (before : Environment)
    (found : List Finding)
    (after : Environment) : Prop :=
  ∀ ⦃resolution : Resolution⦄ ⦃earlier : List Finding⦄,
    resolution.Agrees tree before earlier inExpression [] ->
      ∃ walked, events.foldlM (Resolution.step tree) resolution = .ok walked ∧
        walked.Agrees tree after (earlier ++ found) inExpression []

/-- On the way into a node with this tag and out of it, nothing is done. -/
def Tag.isQuiet : Tag -> Bool
  | .root | .block | .function | .expression | .identifier => false
  | .constant | .mutable | .assign | .evaluate | .return | .unary _ | .binary _ | .call
  | .literal _ => true

namespace Walks

variable
  {tree : Tree}
  {inExpression : Bool}
  {events others inner : List Event}
  {before middle after outer : Environment}
  {scope innerScope : List (String × Mark)}
  {found foundNext : List Finding}
  {mark : Mark}
  {tag : Tag}
  {left right : Nat}

theorem nil : Walks tree inExpression [] before [] before := by
  intro resolution earlier agrees
  exact ⟨resolution, rfl, by rwa [List.append_nil]⟩

theorem append
    (first : Walks tree inExpression events before found middle)
    (second : Walks tree inExpression others middle foundNext after) :
    Walks tree inExpression (events ++ others) before (found ++ foundNext) after := by
  intro resolution earlier agrees
  obtain ⟨halfway, firstWalked, halfwayAgrees⟩ := first agrees
  obtain ⟨walked, secondWalked, walkedAgrees⟩ := second halfwayAgrees
  refine ⟨walked, ?_, by rwa [← List.append_assoc]⟩
  rw [List.foldlM_append, firstWalked]
  exact secondWalked

/-- Phrases that declare nothing are walked through one after the other. -/
theorem flatten
    {Phrase : Type}
    {phrases : List Phrase}
    {eventsOf : Phrase -> List Event}
    {foundIn : Phrase -> List Finding}
    (walks : ∀ phrase ∈ phrases,
      Walks tree inExpression (eventsOf phrase) before (foundIn phrase) before) :
    Walks tree inExpression (phrases.map eventsOf).flatten before
      (phrases.map foundIn).flatten before := by
  induction phrases with
  | nil => exact nil
  | cons phrase phrases ih =>
      exact (walks phrase (by simp)).append
        (ih fun phrase member => walks phrase (by simp [member]))

/-- A node where nothing is done on the way in and out. -/
theorem quiet
    (present : tree.nodes[mark.node]? = some ⟨tag, mark.token, left, right⟩)
    (isQuiet : tag.isQuiet = true)
    (walks : Walks tree inExpression inner before found after) :
    Walks tree inExpression (Event.around mark.node inner) before found after := by
  have entered : ∀ resolution : Resolution,
      resolution.step tree (.enter mark.node) = .ok resolution := by
    intro resolution
    simp only [Resolution.step, Resolution.enter, Tree.node_eq_ok present]
    cases tag <;> simp [Tag.isQuiet] at isQuiet <;> rfl
  have passed : ∀ resolution : Resolution,
      resolution.step tree (.leave mark.node) = .ok resolution := by
    intro resolution
    simp only [Resolution.step, Resolution.leave, Tree.node_eq_ok present]
    cases tag <;> simp [Tag.isQuiet] at isQuiet <;> rfl
  intro resolution earlier agrees
  obtain ⟨walked, innerWalked, walkedAgrees⟩ := walks agrees
  refine ⟨walked, ?_, walkedAgrees⟩
  simp only [Event.foldlM_around, entered, bind, Except.bind, innerWalked, passed]

/-- A node that opens a scope. -/
theorem inScope
    (opens : tag = .root ∨ tag = .block)
    (present : tree.nodes[mark.node]? = some ⟨tag, mark.token, left, right⟩)
    (located : tree.Locates mark)
    (walks : Walks tree inExpression inner ([] :: outer) found (scope :: outer)) :
    Walks tree inExpression (Event.around mark.node inner) outer found outer := by
  have entered : ∀ resolution : Resolution,
      resolution.step tree (.enter mark.node) =
        .ok { resolution with
          scopes := resolution.scopes.enter mark.node (tree.placeOf mark).line
            (tree.placeOf mark).column } := by
    intro resolution
    simp only [Resolution.step, Resolution.enter, Tree.node_eq_ok present]
    rcases opens with rfl | rfl <;>
      simp only [bind, Except.bind, Resolution.enterScope,
        located.location_eq_ok present] <;>
      rfl
  have passed : ∀ (resolution : Resolution) (scopes : Scopes),
      resolution.scopes.leave = .ok scopes ->
        resolution.step tree (.leave mark.node) = .ok { resolution with scopes } := by
    intro resolution scopes closed
    simp only [Resolution.step, Resolution.leave, Tree.node_eq_ok present]
    rcases opens with rfl | rfl <;> simp only [bind, Except.bind, closed] <;> rfl
  intro resolution earlier agrees
  obtain ⟨walked, innerWalked, walkedAgrees⟩ := walks (agrees.enterScope mark.node
    (tree.placeOf mark).line (tree.placeOf mark).column)
  obtain ⟨scopes, closed, closedAgrees⟩ := walkedAgrees.leaveScope
  refine ⟨_, ?_, closedAgrees⟩
  simp only [Event.foldlM_around, entered, bind, Except.bind, innerWalked,
    passed walked scopes closed]

/-- A whole expression. -/
theorem whole
    {whole : Whole Mark}
    (held : whole.Holds tree.nodes tree.extra)
    (walks : Walks tree true whole.inner.events before found before) :
    Walks tree false whole.events before found before := by
  intro resolution earlier agrees
  have entered : resolution.step tree (.enter whole.label.node) =
      .ok { resolution with inExpression := true } := by
    simp only [Resolution.step, Resolution.enter, Tree.node_eq_ok held.present]
    rfl
  have passed : ∀ resolution : Resolution,
      resolution.step tree (.leave whole.label.node) =
        .ok { resolution with inExpression := false } := by
    intro resolution
    simp only [Resolution.step, Resolution.leave, Tree.node_eq_ok held.present]
    rfl
  have inside : Resolution.Agrees tree before earlier true []
      { resolution with inExpression := true } := { agrees with inExpression := rfl }
  obtain ⟨walked, innerWalked, walkedAgrees⟩ := walks inside
  refine ⟨{ walked with inExpression := false }, ?_,
    { walkedAgrees with inExpression := rfl }⟩
  simp only [Whole.events, Event.foldlM_around, entered, bind, Except.bind, innerWalked,
    passed]

/-- An identifier is left without doing anything. -/
theorem leave_identifier
    (present : mark.IsIdentifier tree.nodes)
    (resolution : Resolution) :
    resolution.step tree (.leave mark.node) = .ok resolution := by
  simp only [Resolution.step, Resolution.leave, Tree.node_eq_ok present]
  rfl

/-- An identifier in an expression. -/
theorem reference
    (present : mark.IsIdentifier tree.nodes)
    (located : tree.Locates mark) :
    Walks tree true mark.events before [before.referring tree.lexeme mark] before := by
  intro resolution earlier agrees
  obtain ⟨walked, used, walkedAgrees⟩ := agrees.use present located
  refine ⟨walked, ?_, walkedAgrees⟩
  have entered : resolution.step tree (.enter mark.node) = .ok walked := by
    simp only [Resolution.step, Resolution.enter, Tree.node_eq_ok present, bind,
      Except.bind, agrees.inExpression, if_true]
    exact used
  rw [Mark.events, Event.foldlM_around, entered]
  exact leave_identifier present walked

/-- An identifier that is declared. -/
theorem declaration
    (present : mark.IsIdentifier tree.nodes)
    (located : tree.Locates mark) :
    Walks tree false mark.events (scope :: outer)
      [Environment.declaring (scope :: outer) tree.lexeme mark]
      (Environment.declare (scope :: outer) tree.lexeme mark) := by
  intro resolution earlier agrees
  obtain ⟨walked, declared, walkedAgrees⟩ := agrees.declare present located
  refine ⟨walked, ?_, walkedAgrees⟩
  have entered : resolution.step tree (.enter mark.node) = .ok walked := by
    simp only [Resolution.step, Resolution.enter, Tree.node_eq_ok present, bind,
      Except.bind, agrees.inExpression, agrees.predeclared, List.not_mem_nil]
    exact declared
  rw [Mark.events, Event.foldlM_around, entered]
  exact leave_identifier present walked

/-- Identifiers that are declared in a row. -/
theorem declarations
    (scope : List (String × Mark))
    (outer : Environment)
    {marks : List Mark}
    (present : ∀ mark ∈ marks, mark.IsIdentifier tree.nodes)
    (located : ∀ mark ∈ marks, tree.Locates mark) :
    ∃ declared,
      Environment.declareAll (scope :: outer) tree.lexeme marks = declared :: outer ∧
        Walks tree false (marks.map Mark.events).flatten (scope :: outer)
          (Environment.declaringAll tree.lexeme (scope :: outer) marks)
          (declared :: outer) := by
  induction marks generalizing scope with
  | nil => exact ⟨scope, rfl, nil⟩
  | cons mark marks ih =>
      rw [List.forall_mem_cons] at present located
      obtain ⟨declared, same, walks⟩ := ih
        ((tree.lexeme mark, mark) :: scope) present.2 located.2
      exact ⟨declared, same, (declaration present.1 located.1).append walks⟩

/-- A function. Its name is declared on the way in, so that nothing is left to do
when the walk comes to it. -/
theorem function
    {name : Mark}
    {parts : FunctionParts}
    (present : tree.nodes[mark.node]? = some ⟨.function, mark.token, left, right⟩)
    (located : tree.Locates mark)
    (read : tree.functionParts mark.node = .ok parts)
    (named : parts.name = name.node)
    (namePresent : name.IsIdentifier tree.nodes)
    (nameLocated : tree.Locates name)
    (declared : Environment.declare (scope :: outer) tree.lexeme name = after)
    (walks : Walks tree false inner ([] :: after) found (innerScope :: after)) :
    Walks tree false (Event.around mark.node (name.events ++ inner)) (scope :: outer)
      (Environment.declaring (scope :: outer) tree.lexeme name :: found) after := by
  intro resolution earlier agrees
  obtain ⟨declaring, nameDeclared, declaringAgrees⟩ := agrees.declare namePresent nameLocated
  rw [declared] at declaringAgrees
  let opened : Resolution :=
    { declaring with
      scopes := declaring.scopes.enter mark.node (tree.placeOf mark).line
        (tree.placeOf mark).column }
  have openedAgrees : opened.Agrees tree ([] :: after)
      (earlier ++ [Environment.declaring (scope :: outer) tree.lexeme name]) false [] :=
    declaringAgrees.enterScope _ _ _
  have entered : resolution.step tree (.enter mark.node) =
      .ok { opened with predeclared := [name.node] } := by
    simp only [Resolution.step, Resolution.enter, Tree.node_eq_ok present, bind,
      Except.bind, read, named, nameDeclared, Resolution.enterScope,
      located.location_eq_ok present, declaringAgrees.predeclared]
    rfl
  -- The name is in the list of those that are declared already, and leaves it here.
  have passed : name.events.foldlM (Resolution.step tree)
      { opened with predeclared := [name.node] } = .ok opened := by
    have quiet : Resolution.step tree { opened with predeclared := [name.node] }
        (.enter name.node) = .ok { opened with predeclared := [] } := by
      simp only [Resolution.step, Resolution.enter, Tree.node_eq_ok namePresent, bind,
        Except.bind, openedAgrees.inExpression, Bool.false_eq_true, if_false,
        List.mem_singleton, if_true, List.erase_cons_head]
      rfl
    rw [Mark.events, Event.foldlM_around, quiet, ← openedAgrees.predeclared]
    exact leave_identifier namePresent opened
  obtain ⟨walked, innerWalked, walkedAgrees⟩ := walks openedAgrees
  obtain ⟨scopes, closed, closedAgrees⟩ := walkedAgrees.leaveScope
  refine ⟨{ walked with scopes }, ?_, by simpa using closedAgrees⟩
  have left : walked.step tree (.leave mark.node) = .ok { walked with scopes } := by
    simp only [Resolution.step, Resolution.leave, Tree.node_eq_ok present, bind,
      Except.bind, closed]
    rfl
  simp only [Event.foldlM_around, entered, List.foldlM_append, passed, bind, Except.bind,
    innerWalked, left]

end Walks

section Phrases

variable {tree : Tree}

/-- Walking through an expression finds what its identifiers refer to. -/
theorem Expression.Holds.walks
    {expression : Expression Mark}
    (held : expression.Holds tree.nodes tree.extra)
    (located : ∀ mark ∈ expression.labels, tree.Locates mark)
    (environment : Environment) :
    Walks tree true expression.events environment
      (expression.findings tree.lexeme environment) environment := by
  induction held with
  | identifier present =>
      rw [events, findings]
      exact .reference present (located _ (by simp [labels]))
  | literal present =>
      rw [events, findings]
      exact .quiet present rfl .nil
  | unary present _ operandWalks =>
      rw [labels, List.forall_mem_append] at located
      rw [events, findings]
      exact .quiet present rfl (operandWalks located.1)
  | binary present _ _ leftWalks rightWalks =>
      rw [labels, List.forall_mem_append, List.forall_mem_append] at located
      rw [events, findings]
      exact .quiet present rfl ((leftWalks located.1.1).append (rightWalks located.1.2))
  | call present _ _ _ _ calleeWalks argumentsWalk =>
      rw [labels, List.forall_mem_append, List.forall_mem_append] at located
      rw [events, findings]
      refine .quiet present rfl ((calleeWalks located.1.1).append (.flatten ?_))
      intro argument member
      refine argumentsWalk argument member fun mark markMember => ?_
      exact located.1.2 mark
        (List.mem_flatten.mpr ⟨_, List.mem_map_of_mem member, markMember⟩)

theorem Whole.Holds.walks
    {whole : Whole Mark}
    (held : whole.Holds tree.nodes tree.extra)
    (located : ∀ mark ∈ whole.labels, tree.Locates mark)
    (environment : Environment) :
    Walks tree false whole.events environment
      (whole.inner.findings tree.lexeme environment) environment := by
  rw [labels, List.forall_mem_append] at located
  exact .whole held (held.innerHeld.walks located.1 environment)

/-- A statement is walked through in every environment. -/
def Statement.WalksAnywhere (tree : Tree) (statement : Statement Mark) : Prop :=
  ∀ (scope : List (String × Mark)) (outer : Environment), ∃ innerScope,
    statement.environmentAfter tree.lexeme (scope :: outer) = innerScope :: outer ∧
      Walks tree false statement.events (scope :: outer)
        (statement.findings tree.lexeme (scope :: outer)) (innerScope :: outer)

/-- Statements in a row are walked through one after the other. -/
theorem walks_inRow
    {statements : List (Statement Mark)}
    (walks : ∀ statement ∈ statements, statement.WalksAnywhere tree)
    (scope : List (String × Mark))
    (outer : Environment) :
    ∃ innerScope,
      Walks tree false (statements.map Statement.events).flatten (scope :: outer)
        (Statement.findingsInRow tree.lexeme (scope :: outer) statements)
        (innerScope :: outer) := by
  induction statements generalizing scope with
  | nil =>
      rw [Statement.findingsInRow]
      exact ⟨scope, .nil⟩
  | cons statement statements ih =>
      rw [List.forall_mem_cons] at walks
      obtain ⟨middle, same, first⟩ := walks.1 scope outer
      obtain ⟨last, rest⟩ := ih walks.2 middle
      rw [Statement.findingsInRow, same]
      exact ⟨last, first.append rest⟩

/-- Walking through a statement finds what its identifiers declare and refer to. -/
theorem Statement.Holds.walksAnywhere
    {statement : Statement Mark}
    (held : statement.Holds tree.nodes tree.extra)
    (located : ∀ mark ∈ statement.labels, tree.Locates mark) :
    statement.WalksAnywhere tree := by
  intro scope outer
  induction held generalizing scope outer with
  | @binding mark name isConstant value present nameHeld valueHeld =>
      rw [labels, List.forall_mem_append, List.forall_mem_cons] at located
      refine ⟨(tree.lexeme name, name) :: scope, rfl, ?_⟩
      rw [events, findings]
      refine .quiet present (by cases isConstant <;> rfl) ?_
      exact (Walks.declaration nameHeld located.1.1).append
        (valueHeld.walks located.1.2 _)
  | assign present targetHeld valueHeld =>
      rw [labels, List.forall_mem_append, List.forall_mem_append] at located
      refine ⟨scope, rfl, ?_⟩
      rw [events, findings]
      exact .quiet present rfl
        ((targetHeld.walks located.1.1 _).append (valueHeld.walks located.1.2 _))
  | evaluate present expressionHeld =>
      rw [labels, List.forall_mem_append] at located
      refine ⟨scope, rfl, ?_⟩
      rw [events, findings]
      exact .quiet present rfl (expressionHeld.walks located.1 _)
  | @«return» mark value present valueHeld =>
      rw [labels, List.forall_mem_append] at located
      refine ⟨scope, rfl, ?_⟩
      rw [events, findings]
      refine .quiet present rfl (.flatten fun whole member => ?_)
      have same := Option.mem_toList.mp member
      simp only [Option.mem_def.mp same, Option.map_some, Option.getD_some] at located
      exact (valueHeld whole same).walks located.1 _
  | block present _ _ statementsWalk =>
      rw [labels, List.forall_mem_append] at located
      obtain ⟨innerScope, inside⟩ := walks_inRow (fun statement member scope outer =>
        statementsWalk statement member (fun mark markMember => located.1 mark
          (List.mem_flatten.mpr ⟨_, List.mem_map_of_mem member, markMember⟩)) scope outer)
        [] (scope :: outer)
      refine ⟨scope, rfl, ?_⟩
      rw [events, findings]
      exact .inScope (.inr rfl) present (located.2 _ (by simp)) inside
  | @function mark name bodyMark parameters body _ _ _ present bounds run nameHeld
      parametersHeld bodyPresent _ _ bodyWalks =>
      rw [labels, List.forall_mem_append, List.forall_mem_append, List.forall_mem_append,
        List.forall_mem_cons] at located
      obtain ⟨⟨⟨nameLocated, parametersLocated⟩, bodyLocated, blockLocated⟩, markLocated⟩ :=
        located
      obtain ⟨declared, same, parametersWalk⟩ :=
        Walks.declarations [] (Environment.declare (scope :: outer) tree.lexeme name)
          parametersHeld parametersLocated
      obtain ⟨innerScope, inside⟩ := walks_inRow (fun statement member scope outer =>
        bodyWalks statement member (fun mark markMember => bodyLocated mark
          (List.mem_flatten.mpr ⟨_, List.mem_map_of_mem member, markMember⟩)) scope outer)
        [] (declared :: Environment.declare (scope :: outer) tree.lexeme name)
      refine ⟨(tree.lexeme name, name) :: scope, rfl, ?_⟩
      have innerWalks := parametersWalk.append
        (.inScope (.inr rfl) bodyPresent (blockLocated _ (by simp)) inside)
      have read := Tree.functionParts_eq_ok present (by simpa using bounds) run
      rw [events, findings, List.append_assoc, same]
      exact .function present (markLocated _ (by simp)) read rfl nameHeld nameLocated rfl
        innerWalks

end Phrases

/-- At first no scope is open, and nothing has been found. -/
theorem Resolution.agrees_empty (tree : Tree) :
    Resolution.Agrees tree [] [] false [] {} where
  inForce := .none
  depth := rfl
  entered := rfl
  recorded := ⟨by simp, by simp⟩
  declared := rfl
  usages := .nil
  diagnostics := rfl
  inExpression := rfl
  predeclared := rfl

/-- The walk through a legible tree finds what lexical scoping finds, and leaves no
scope open. -/
theorem Tree.Legible.exists_resolution
    {tree : Tree}
    {program : Program Mark}
    (legible : tree.Legible program) :
    ∃ resolution,
      tree.resolution = .ok resolution ∧
        resolution.Agrees tree [] (program.findings tree.lexeme) false [] := by
  obtain ⟨represents, small, located⟩ := legible
  rw [Program.labels, List.forall_mem_cons] at located
  obtain ⟨start, present, run⟩ := represents.held.exists_run
  have statementsWalk : ∀ statement ∈ program.statements, statement.WalksAnywhere tree := by
    intro statement member
    refine (represents.held.statementsHeld statement member).walksAnywhere fun mark inside => ?_
    exact located.2 mark (List.mem_flatten.mpr ⟨_, List.mem_map_of_mem member, inside⟩)
  obtain ⟨innerScope, inside⟩ := walks_inRow statementsWalk [] []
  obtain ⟨resolution, walked, agrees⟩ :=
    Walks.inScope (.inl rfl) present located.1 inside (Resolution.agrees_empty tree)
  refine ⟨resolution, ?_, agrees⟩
  simp only [Tree.resolution, represents.events small, bind, Except.bind]
  exact walked

end Frontend
