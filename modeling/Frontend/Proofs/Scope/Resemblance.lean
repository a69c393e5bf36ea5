import Frontend.Proofs.Scope.Steps

/-!
# Trees that resemble each other

Resolution reads little of a tree: the tags and the places of nodes, the names of
functions, and which texts of names are the same. Where two trees do not differ in that,
the walks through them find the same. The texts themselves occur only in diagnostics.
-/

namespace Frontend

/-! ## Other texts -/

namespace Diagnostic

/-- Change the identifier that a cause quotes. -/
def Cause.rename (change : String -> String) : Cause -> Cause
  | .undeclared identifier => .undeclared (change identifier)
  | .redeclared identifier => .redeclared (change identifier)
  | cause => cause

/-- Change the identifier that a diagnostic quotes. -/
def rename (change : String -> String) (diagnostic : Diagnostic) : Diagnostic :=
  { diagnostic with cause := diagnostic.cause.rename change }

theorem rename_id (diagnostic : Diagnostic) : diagnostic.rename id = diagnostic := by
  obtain ⟨cause, location⟩ := diagnostic
  cases cause <;> rfl

end Diagnostic

namespace Resolution

/-- Change the identifiers that the diagnostics of a walk quote. -/
def rename (change : String -> String) (resolution : Resolution) : Resolution :=
  { resolution with diagnostics := resolution.diagnostics.map (Diagnostic.rename change) }

theorem inExpression_rename (change : String -> String) (resolution : Resolution) :
    (resolution.rename change).inExpression = resolution.inExpression :=
  rfl

theorem predeclared_rename (change : String -> String) (resolution : Resolution) :
    (resolution.rename change).predeclared = resolution.predeclared :=
  rfl

theorem rename_id (resolution : Resolution) : resolution.rename id = resolution := by
  have same : Diagnostic.rename id = id := funext Diagnostic.rename_id
  simp [rename, same]

/-- Every record of a name is that of one of these nodes. -/
def Binds (Names : NodeId -> Prop) (resolution : Resolution) : Prop :=
  ∀ declaration ∈ resolution.scopes.declarations,
    declaration.isBinding = true -> Names declaration.node

theorem Binds.declare
    {Names : NodeId -> Prop}
    {resolution : Resolution}
    (binds : resolution.Binds Names)
    {node : NodeId}
    (named : Names node)
    (line column : Nat) :
    Binds Names { resolution with scopes := resolution.scopes.declare node line column } := by
  simp only [Binds, Scopes.declare, Array.mem_push]
  rintro declaration (earlier | rfl) isBinding
  · exact binds declaration earlier isBinding
  · exact named

theorem Binds.enter
    {Names : NodeId -> Prop}
    {resolution : Resolution}
    (binds : resolution.Binds Names)
    (node : NodeId)
    (line column : Nat) :
    Binds Names { resolution with scopes := resolution.scopes.enter node line column } := by
  simp only [Binds, Scopes.enter, Array.mem_push]
  rintro declaration (earlier | rfl) isBinding
  · exact binds declaration earlier isBinding
  · cases isBinding

end Resolution

/-! ## Lookups -/

namespace Scopes

variable
  {scopes : Scopes}
  {property other : Declaration -> Bool}
  (same : ∀ declaration ∈ scopes.declarations, property declaration = other declaration)

include same

theorem satisfies_congr : scopes.satisfies property = scopes.satisfies other := by
  funext id
  unfold satisfies
  cases present : scopes.declarations[id]? with
  | none => rfl
  | some declaration => exact same declaration (Array.mem_of_getElem? present)

theorem lookup?_congr : scopes.lookup? property = scopes.lookup? other := by
  rw [lookup?, lookup?, satisfies_congr same]

theorem lookupInnermost?_congr :
    scopes.lookupInnermost? property = scopes.lookupInnermost? other := by
  rw [lookupInnermost?, lookupInnermost?, satisfies_congr same]

end Scopes

/-! ## Walks -/

/-- Inside, the trees have the same tags and places and the same names of functions. What
is a name in the first tree is spelled in the other one with the change. -/
structure Tree.Resembles
    (tree other : Tree)
    (change : String -> String)
    (Inside Names : NodeId -> Prop) : Prop where
  injective : Function.Injective change
  node : ∀ id, Inside id ->
    SameResult (fun found twin => found.tag = twin.tag) (tree.node id) (other.node id)
  location : ∀ id, Inside id -> tree.location id = other.location id
  text : ∀ id, Names id -> other.text id = (tree.text id).map change
  names_inside : ∀ id, Names id -> Inside id
  identifier : ∀ id found, Inside id -> tree.node id = .ok found ->
    found.tag = .identifier -> Names id
  function : ∀ id found, Inside id -> tree.node id = .ok found -> found.tag = .function ->
    other.functionParts id = tree.functionParts id ∧
      ∀ parts, tree.functionParts id = .ok parts -> Names parts.name

namespace Tree.Resembles

open Resolution

variable
  {tree other : Tree}
  {change : String -> String}
  {Inside Names : NodeId -> Prop}
  (resembles : tree.Resembles other change Inside Names)
  {resolution : Resolution}
  (binds : resolution.Binds Names)
  {node : NodeId}

/-- The walks have found the same, but for the texts in diagnostics. -/
def Found
    (change : String -> String)
    (Names : NodeId -> Prop)
    (resolution twin : Resolution) : Prop :=
  twin = resolution.rename change ∧ resolution.Binds Names

include resembles

/-- A name is found again by its new text, and only by that. -/
theorem declares_eq
    (lexeme : String)
    {declaration : Declaration}
    (isName : declaration.isBinding = true -> Names declaration.node) :
    declares tree lexeme declaration = declares other (change lexeme) declaration := by
  unfold declares
  cases isBinding : declaration.isBinding with
  | false => rfl
  | true =>
      rw [resembles.text _ (isName isBinding)]
      cases tree.text declaration.node with
      | error fault => rfl
      | ok text =>
          simp only [Except.map, Bool.true_and]
          rw [Bool.eq_iff_iff, beq_iff_eq, beq_iff_eq, resembles.injective.eq_iff]

theorem node_cases (inside : Inside node) :
    (∃ fault, tree.node node = .error fault ∧ other.node node = .error fault) ∨
      ∃ found twin,
        tree.node node = .ok found ∧ other.node node = .ok twin ∧ found.tag = twin.tag := by
  have same := resembles.node node inside
  generalize tree.node node = read, other.node node = twinRead at same
  cases same with
  | ok sameTag => exact .inr ⟨_, _, rfl, rfl, sameTag⟩
  | error fault => exact .inl ⟨fault, rfl, rfl⟩

include binds

theorem lookup?_eq (lexeme : String) :
    (resolution.rename change).scopes.lookup? (declares other (change lexeme)) =
      resolution.scopes.lookup? (declares tree lexeme) :=
  (Scopes.lookup?_congr fun declaration member =>
    resembles.declares_eq lexeme (binds declaration member)).symm

theorem lookupInnermost?_eq (lexeme : String) :
    (resolution.rename change).scopes.lookupInnermost? (declares other (change lexeme)) =
      resolution.scopes.lookupInnermost? (declares tree lexeme) :=
  (Scopes.lookupInnermost?_congr fun declaration member =>
    resembles.declares_eq lexeme (binds declaration member)).symm

theorem declare (named : Names node) :
    SameResult (Found change Names) (resolution.declare tree node)
      ((resolution.rename change).declare other node) := by
  unfold Resolution.declare
  rw [resembles.text node named,
    ← resembles.location node (resembles.names_inside node named)]
  cases tree.text node with
  | error fault => exact .error fault
  | ok lexeme =>
      cases tree.location node with
      | error fault => exact .error fault
      | ok location =>
          simp only [Except.map, bind, Except.bind, resembles.lookupInnermost?_eq binds]
          split
          next =>
            refine .ok ⟨?_, Binds.declare binds named _ _⟩
            simp [rename, report, Diagnostic.rename, Diagnostic.Cause.rename]
          next => exact .ok ⟨rfl, Binds.declare binds named _ _⟩

theorem use (named : Names node) :
    SameResult (Found change Names) (resolution.use tree node)
      ((resolution.rename change).use other node) := by
  unfold Resolution.use
  rw [resembles.text node named,
    ← resembles.location node (resembles.names_inside node named)]
  cases tree.text node with
  | error fault => exact .error fault
  | ok lexeme =>
      simp only [Except.map, bind, Except.bind, resembles.lookup?_eq binds]
      cases resolution.scopes.lookup? (declares tree lexeme) with
      | some declaration => exact .ok ⟨rfl, binds⟩
      | none =>
          cases tree.location node with
          | error fault => exact .error fault
          | ok location =>
              refine .ok ⟨?_, binds⟩
              simp [rename, report, Diagnostic.rename, Diagnostic.Cause.rename]

theorem enterScope (inside : Inside node) :
    SameResult (Found change Names) (resolution.enterScope tree node)
      ((resolution.rename change).enterScope other node) := by
  unfold Resolution.enterScope
  rw [← resembles.location node inside]
  cases tree.location node with
  | error fault => exact .error fault
  | ok location =>
      exact .ok ⟨rfl, Binds.enter binds node location.line location.column⟩

omit resembles in
theorem leaveScope :
    SameResult (Found change Names)
      (resolution.scopes.leave >>= fun scopes => pure { resolution with scopes })
      ((resolution.rename change).scopes.leave >>= fun scopes =>
        pure { resolution.rename change with scopes }) := by
  change SameResult _ _ (resolution.scopes.leave >>= _)
  unfold Scopes.leave
  split
  · exact .ok ⟨rfl, binds⟩
  · exact .error _

theorem enter (inside : Inside node) :
    SameResult (Found change Names) (resolution.enter tree node)
      ((resolution.rename change).enter other node) := by
  unfold Resolution.enter
  rcases resembles.node_cases inside with ⟨fault, read, twinRead⟩ |
    ⟨found, twin, read, twinRead, sameTag⟩
  · rw [read, twinRead]
    exact .error fault
  · simp only [read, twinRead, bind, Except.bind, ← sameTag]
    split
    next => exact resembles.enterScope binds inside
    next => exact resembles.enterScope binds inside
    next isFunction =>
      obtain ⟨sameParts, named⟩ := resembles.function node found inside read isFunction
      rw [sameParts]
      cases partsRead : tree.functionParts node with
      | error fault => exact .error fault
      | ok parts =>
          refine (resembles.declare binds (named parts partsRead)).bind ?_
          rintro declared _ ⟨rfl, declaredBinds⟩
          exact @enterScope tree other change Inside Names resembles
            { declared with predeclared := declared.predeclared.insert parts.name }
            declaredBinds node inside
    next => exact .ok ⟨rfl, binds⟩
    next isIdentifier =>
      have named := resembles.identifier node found inside read isIdentifier
      rw [inExpression_rename, predeclared_rename]
      split
      next => exact resembles.use binds named
      next =>
        split
        next => exact .ok ⟨rfl, binds⟩
        next => exact resembles.declare binds named
    next => exact .ok ⟨rfl, binds⟩

theorem leave (inside : Inside node) :
    SameResult (Found change Names) (resolution.leave tree node)
      ((resolution.rename change).leave other node) := by
  unfold Resolution.leave
  rcases resembles.node_cases inside with ⟨fault, read, twinRead⟩ |
    ⟨found, twin, read, twinRead, sameTag⟩
  · rw [read, twinRead]
    exact .error fault
  · simp only [read, twinRead, bind, Except.bind, ← sameTag]
    split
    case h_4 => exact .ok ⟨rfl, binds⟩
    case h_5 => exact .ok ⟨rfl, binds⟩
    all_goals exact leaveScope binds

theorem step {event : Event} (inside : Inside event.node) :
    SameResult (Found change Names) (resolution.step tree event)
      ((resolution.rename change).step other event) := by
  cases event with
  | enter node => exact resembles.enter binds inside
  | leave node => exact resembles.leave binds inside

omit binds in
/-- Walks on the inside find the same. -/
theorem foldlM
    {events : List Event}
    (inside : ∀ event ∈ events, Inside event.node) :
    SameResult (Found change Names) (events.foldlM (Resolution.step tree) {})
      (events.foldlM (Resolution.step other) {}) := by
  refine SameResult.foldlM ?_ ⟨by simp [rename], by simp [Binds]⟩
  rintro event member resolution _ ⟨rfl, binds⟩
  exact resembles.step binds (inside event member)

end Tree.Resembles

end Frontend
