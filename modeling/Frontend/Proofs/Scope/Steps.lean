import Frontend.Proofs.Syntax.Walk
import Frontend.Scope.Resolution

/-!
# Steps of resolution

Whatever tree is walked through, each step of resolution keeps some promises: the names
in force have records, the nodes of records have a text, and a diagnostic quotes the
text at its own location. So lookups never meet a record that is not there.
-/

namespace Frontend

/-- The node is an identifier, or a function has it as its name. -/
def Tree.IsName (tree : Tree) (node : NodeId) : Prop :=
  (∃ found, tree.nodes[node]? = some found ∧ found.tag = .identifier) ∨
    ∃ function found parts,
      tree.nodes[function]? = some found ∧ found.tag = .function ∧
        tree.functionParts function = .ok parts ∧ parts.name = node

/-- The diagnostic is about a name, and quotes the text at the location of that name. -/
def Tree.Quotes (tree : Tree) (diagnostic : Diagnostic) : Prop :=
  ∃ node lexeme,
    tree.IsName node ∧ tree.text node = .ok lexeme ∧
      tree.location node = .ok diagnostic.location ∧
      (diagnostic.cause = .undeclared lexeme ∨ diagnostic.cause = .redeclared lexeme)

theorem Tree.exists_text_of_location
    {tree : Tree}
    {node : NodeId}
    {location : Location}
    (located : tree.location node = .ok location) :
    ∃ text, tree.text node = .ok text := by
  obtain ⟨found, present, located⟩ := exists_of_bind_eq_ok located
  obtain ⟨token, read, -⟩ := exists_of_bind_eq_ok located
  refine ⟨token.value, ?_⟩
  simp only [text, bind, Except.bind, present, read]
  rfl

namespace Resolution

/-- What every step keeps true of the records, the names in force and the
diagnostics. -/
structure Sound (tree : Tree) (resolution : Resolution) : Prop where
  visible : ∀ id ∈ resolution.scopes.visible, id < resolution.scopes.declarations.size
  texts : ∀ declaration ∈ resolution.scopes.declarations,
    ∃ text, tree.text declaration.node = .ok text
  reported : ∀ diagnostic ∈ resolution.diagnostics, tree.Quotes diagnostic

variable {tree : Tree} {resolution next : Resolution} {node : NodeId}

theorem sound_empty (tree : Tree) : Sound tree {} := by
  constructor <;> simp

namespace Sound

theorem report
    (sound : resolution.Sound tree)
    {cause : Diagnostic.Cause}
    {location : Location}
    (quotes : tree.Quotes { cause, location }) :
    (resolution.report cause location).Sound tree := by
  refine ⟨sound.visible, sound.texts, ?_⟩
  simp only [Resolution.report, Array.mem_push]
  rintro diagnostic (earlier | rfl)
  · exact sound.reported diagnostic earlier
  · exact quotes

theorem declare
    (sound : resolution.Sound tree)
    (isName : tree.IsName node)
    (declared : resolution.declare tree node = .ok next) :
    next.Sound tree := by
  obtain ⟨lexeme, read, declared⟩ := exists_of_bind_eq_ok declared
  obtain ⟨location, located, declared⟩ := exists_of_bind_eq_ok declared
  -- Whether there is a clash or not, a record of the node is added.
  have addRecord : ∀ state : Resolution, state.Sound tree ->
      Sound tree { state with
        scopes := state.scopes.declare node location.line location.column } := by
    intro state stateSound
    refine ⟨?_, ?_, stateSound.reported⟩
    · simp only [Scopes.declare, Scopes.nextId, List.mem_cons, Array.size_push]
      rintro id (rfl | earlier)
      · exact Nat.lt_succ_self _
      · exact Nat.lt_succ_of_lt (stateSound.visible id earlier)
    · simp only [Scopes.declare, Array.mem_push]
      rintro declaration (earlier | rfl)
      · exact stateSound.texts declaration earlier
      · exact ⟨lexeme, read⟩
  cases declared
  apply addRecord
  split
  · exact sound.report ⟨node, lexeme, isName, read, located, .inr rfl⟩
  · exact sound

theorem use
    (sound : resolution.Sound tree)
    (isName : tree.IsName node)
    (used : resolution.use tree node = .ok next) :
    next.Sound tree := by
  obtain ⟨lexeme, read, used⟩ := exists_of_bind_eq_ok used
  split at used
  next =>
    cases used
    exact ⟨sound.visible, sound.texts, sound.reported⟩
  next =>
    obtain ⟨location, located, used⟩ := exists_of_bind_eq_ok used
    cases used
    exact sound.report ⟨node, lexeme, isName, read, located, .inl rfl⟩

theorem enterScope
    (sound : resolution.Sound tree)
    (entered : resolution.enterScope tree node = .ok next) :
    next.Sound tree := by
  obtain ⟨location, located, entered⟩ := exists_of_bind_eq_ok entered
  cases entered
  refine ⟨?_, ?_, sound.reported⟩
  · simp only [Scopes.enter, Array.size_push]
    exact fun id member => Nat.lt_succ_of_lt (sound.visible id member)
  · simp only [Scopes.enter, Array.mem_push]
    rintro declaration (earlier | rfl)
    · exact sound.texts declaration earlier
    · exact Tree.exists_text_of_location located

theorem leaveScope
    (sound : resolution.Sound tree)
    {scopes : Scopes}
    (left : resolution.scopes.leave = .ok scopes) :
    Sound tree { resolution with scopes } := by
  obtain ⟨_, _, _, -, -, rfl⟩ := Scopes.leave_eq_ok.mp left
  exact ⟨fun id member => sound.visible id (List.mem_of_mem_drop member), sound.texts,
    sound.reported⟩

theorem enter
    (sound : resolution.Sound tree)
    (entered : resolution.enter tree node = .ok next) :
    next.Sound tree := by
  obtain ⟨found, read, entered⟩ := exists_of_bind_eq_ok entered
  have present := Tree.getElem?_of_node_eq_ok read
  split at entered
  next => exact sound.enterScope entered
  next => exact sound.enterScope entered
  next isFunction =>
    obtain ⟨parts, partsRead, entered⟩ := exists_of_bind_eq_ok entered
    obtain ⟨declared, nameDeclared, entered⟩ := exists_of_bind_eq_ok entered
    have isName : tree.IsName parts.name :=
      .inr ⟨node, found, parts, present, isFunction, partsRead, rfl⟩
    have declaredSound := sound.declare isName nameDeclared
    refine enterScope ?_ entered
    exact ⟨declaredSound.visible, declaredSound.texts, declaredSound.reported⟩
  next =>
    cases entered
    exact ⟨sound.visible, sound.texts, sound.reported⟩
  next isIdentifier =>
    have isName : tree.IsName node := .inl ⟨found, present, isIdentifier⟩
    split at entered
    next => exact sound.use isName entered
    next =>
      split at entered
      next =>
        cases entered
        exact ⟨sound.visible, sound.texts, sound.reported⟩
      next => exact sound.declare isName entered
  next =>
    cases entered
    exact sound

theorem leave
    (sound : resolution.Sound tree)
    (left : resolution.leave tree node = .ok next) :
    next.Sound tree := by
  obtain ⟨found, -, left⟩ := exists_of_bind_eq_ok left
  split at left
  case h_4 =>
    cases left
    exact ⟨sound.visible, sound.texts, sound.reported⟩
  case h_5 =>
    cases left
    exact sound
  all_goals
    obtain ⟨scopes, scopesLeft, rest⟩ := exists_of_bind_eq_ok left
    cases rest
    exact sound.leaveScope scopesLeft

/-- A step of the walk keeps the promises. -/
theorem step
    (sound : resolution.Sound tree)
    {event : Event}
    (stepped : resolution.step tree event = .ok next) :
    next.Sound tree := by
  cases event with
  | enter node => exact sound.enter stepped
  | leave node => exact sound.leave stepped

end Sound

/-- A walk keeps the promises, wherever it stops. -/
theorem sound_of_foldlM
    {events : List Event}
    (walked : events.foldlM (Resolution.step tree) {} = .ok resolution) :
    resolution.Sound tree :=
  foldlM_preserves (fun _ sound stepped => sound.step stepped) (sound_empty tree) walked

end Resolution

/-- Resolving the names of a tree keeps the promises. -/
theorem Tree.sound_of_resolution
    {tree : Tree}
    {resolution : Resolution}
    (resolved : tree.resolution = .ok resolution) :
    resolution.Sound tree := by
  obtain ⟨events, -, walked⟩ := exists_of_bind_eq_ok resolved
  exact Resolution.sound_of_foldlM walked

end Frontend
